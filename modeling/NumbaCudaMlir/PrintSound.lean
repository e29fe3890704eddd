import NumbaCudaMlir.Print

/-!
# What Python prints

Python's text of the arguments, and when the calls print it.
-/

namespace NumbaCudaMlir.Print

open MachineInt StringEq Printf

/-! ## Bytes of strings -/

def charBytes (w : Nat) (c : Nat) : List Byte := (List.range w).map fun i => BitVec.ofNat 8 (c / 256 ^ i)

theorem flatMap_charBytes {w : Nat} (hw : 0 < w) (points : List Nat) :
    points.flatMap (charBytes w) =
      (List.range (points.length * w)).map fun i => BitVec.ofNat 8 (points.getD (i / w) 0 / 256 ^ (i % w)) := by
  induction points with
  | nil => simp
  | cons c points ih =>
    have hlen : (c :: points).length * w = w + points.length * w := by rw [List.length_cons]; ring
    rw [List.flatMap_cons, ih, hlen, List.range_add, List.map_append, List.map_map]
    congr 1
    · apply List.map_congr_left
      intro i hi
      have hi := List.mem_range.mp hi
      rw [Nat.div_eq_of_lt hi, Nat.mod_eq_of_lt hi]
      rfl
    · apply List.map_congr_left
      intro i _
      have hdiv : (w + i) / w = i / w + 1 := Nat.add_div_left i hw
      have hmod : (w + i) % w = i % w := Nat.add_mod_left w i
      rw [Function.comp_apply, hdiv, hmod]
      rfl

theorem width_pos (k : Kind) : 0 < k.width := by cases k <;> decide

theorem bytes_eq (s : PyString) : (materializeStringConstant 0 s).1 = (s.points ++ [0]).flatMap (charBytes s.kind.width) := by
  have hgetD : ∀ q, (s.points ++ [0]).getD q 0 = s.points.getD q 0 := by
    intro q
    rw [List.getD_eq_getElem?_getD, List.getD_eq_getElem?_getD, List.getElem?_append]
    split
    · rfl
    · rename_i hq
      rw [List.getElem?_eq_none (not_lt.mp hq)]
      cases q - s.points.length <;> rfl
  rw [flatMap_charBytes (width_pos s.kind), List.length_append]
  apply List.map_congr_left
  intro i _
  rw [hgetD]
  rfl

theorem utf8_length (c : Nat) : (utf8 c).length = if c < 0x80 then 1 else if c < 0x800 then 2 else if c < 0x10000 then 3 else 4 := by
  unfold utf8
  split_ifs <;> rfl

theorem cString_append_length (t u : List Byte) : (cString (t ++ u)).length ≤ (cString t).length + (cString u).length := by
  by_cases h : (0 : Byte) ∈ t
  · rw [cString_append_of_mem h]
    omega
  · rw [cString_append_of_not_mem h, List.length_append, ← List.append_nil t, cString_append_of_not_mem h, List.append_nil]
    simp [cString]

theorem cString_length_le {t : List Byte} {i : Nat} (h : t[i]? = some 0) : (cString t).length ≤ i := by
  induction t generalizing i with
  | nil => cases h
  | cons b t ih =>
    unfold cString at ih ⊢
    rw [List.takeWhile_cons]
    by_cases hb : b = 0
    · simp [hb]
    · rw [if_pos (bne_iff_ne.mpr hb)]
      cases i with
      | zero => exact absurd (Option.some.inj h) hb
      | succ i => exact Nat.succ_le_succ (ih h)

theorem cString_charBytes (k : Kind) {c : Nat} (hunicode : c < 0x110000) (hfits : c < 256 ^ k.width) :
    (cString (charBytes k.width c)).length ≤ (utf8 c).length ∧ (0x800 ≤ c → (cString (charBytes k.width c)).length < (utf8 c).length) := by
  have hzero : ∀ i, i < k.width → c < 256 ^ i → (cString (charBytes k.width c)).length ≤ i := by
    intro i hi hlt
    apply cString_length_le
    rw [charBytes, List.getElem?_map, List.getElem?_range hi, Option.map_some, Nat.div_eq_of_lt hlt]
    rfl
  have hall : (cString (charBytes k.width c)).length ≤ k.width := by
    refine (List.takeWhile_sublist _).length_le.trans ?_
    simp [charBytes]
  have h1 := hzero 1
  have h2 := hzero 2
  have h3 := hzero 3
  rw [utf8_length]
  cases k <;> simp only [Kind.width] at * <;> split_ifs <;> omega

theorem cString_points (k : Kind) (points : List Nat) (hunicode : ∀ c ∈ points, c < 0x110000)
    (hfits : ∀ c ∈ points, c < 256 ^ k.width) :
    (cString ((points ++ [0]).flatMap (charBytes k.width))).length ≤ (points.flatMap utf8).length := by
  induction points with
  | nil => cases k <;> decide
  | cons c points ih =>
    have hc := (cString_charBytes k (hunicode c List.mem_cons_self) (hfits c List.mem_cons_self)).1
    have hrest := ih (fun x hx => hunicode x (List.mem_cons_of_mem _ hx)) fun x hx => hfits x (List.mem_cons_of_mem _ hx)
    have happend := cString_append_length (charBytes k.width c) ((points ++ [0]).flatMap (charBytes k.width))
    rw [List.cons_append, List.flatMap_cons, List.flatMap_cons, List.length_append]
    omega

/-- Characters that are stored and printed as they are. -/
def Ascii (points : List Nat) : Prop := ∀ c ∈ points, 0 < c ∧ c < 128

theorem kind_of_ascii {s : PyString} (hcompact : s.Compact) (h : Ascii s.points) : s.kind = .oneByte := by
  unfold PyString.Compact at hcompact
  cases hk : s.kind with
  | oneByte => rfl
  | twoByte | fourByte =>
    rw [hk] at hcompact
    obtain ⟨c, hc, hle⟩ := hcompact
    have := (h c hc).2
    omega

theorem cString_oneByte {points : List Nat} (hfits : ∀ c ∈ points, c < 256) :
    cString ((points ++ [0]).flatMap (charBytes 1)) = points.flatMap utf8 ↔ Ascii points := by
  have hchar : ∀ c, charBytes 1 c = [BitVec.ofNat 8 c] := by
    intro c
    simp [charBytes]
  induction points with
  | nil => exact iff_of_true rfl (by simp [Ascii])
  | cons c points ih =>
    have hrest := ih fun x hx => hfits x (List.mem_cons_of_mem _ hx)
    have hc := hfits c List.mem_cons_self
    have hsplit : Ascii (c :: points) ↔ (0 < c ∧ c < 128) ∧ Ascii points := List.forall_mem_cons
    have hzero : BitVec.ofNat 8 c = 0 ↔ c = 0 := by
      rw [← BitVec.toNat_inj, BitVec.toNat_ofNat, Nat.mod_eq_of_lt (by omega)]
      rfl
    have hcut : cString ((c :: points ++ [0]).flatMap (charBytes 1)) =
        if c = 0 then [] else BitVec.ofNat 8 c :: cString ((points ++ [0]).flatMap (charBytes 1)) := by
      rw [List.cons_append, List.flatMap_cons, hchar, List.singleton_append, cString, List.takeWhile_cons]
      by_cases h0 : c = 0
      · simp [h0]
      · rw [if_neg h0, if_pos (bne_iff_ne.mpr (mt hzero.mp h0))]
        rfl
    rw [hcut, List.flatMap_cons, hsplit]
    have hlen := utf8_length c
    by_cases h0 : c = 0
    · rw [if_pos h0]
      refine iff_of_false (fun h => ?_) fun h => by omega
      have := congrArg List.length h
      rw [List.length_append, List.length_nil] at this
      split_ifs at hlen <;> omega
    · rw [if_neg h0]
      by_cases hascii : c < 0x80
      · rw [utf8, if_pos hascii, List.singleton_append, List.cons.injEq]
        exact ⟨fun h => ⟨⟨Nat.pos_of_ne_zero h0, hascii⟩, hrest.mp h.2⟩, fun h => ⟨rfl, hrest.mpr h.2⟩⟩
      · refine iff_of_false (fun h => ?_) fun h => hascii h.1.2
        have hlens := congrArg List.length h
        have hle := cString_points .oneByte points (fun x hx => (hfits x (List.mem_cons_of_mem _ hx)).trans (by decide))
          fun x hx => hfits x (List.mem_cons_of_mem _ hx)
        rw [List.length_cons, List.length_append, hlen, if_neg hascii] at hlens
        simp only [Kind.width] at hle
        split_ifs at hlens <;> omega

theorem getElem?_cString {t : List Byte} {i : Nat} {b : Byte} (h : (cString t)[i]? = some b) : t[i]? = some b := by
  obtain ⟨u, hu⟩ := List.takeWhile_prefix (l := t) (· != 0)
  have hlt := (List.getElem?_eq_some_iff.mp h).1
  rw [← hu]
  change (cString t ++ u)[i]? = some b
  rwa [List.getElem?_append_left hlt]

theorem length_le_utf8 (points : List Nat) : points.length ≤ (points.flatMap utf8).length := by
  induction points with
  | nil => simp
  | cons c points ih =>
    have hutf8 := utf8_length c
    rw [List.flatMap_cons, List.length_append, List.length_cons]
    split_ifs at hutf8 <;> omega

theorem cString_wide {k : Kind} (hk : 2 ≤ k.width) {points : List Nat} (hunicode : ∀ c ∈ points, c < 0x110000)
    (hfits : ∀ c ∈ points, c < 256 ^ k.width) (hcompact : ∃ c ∈ points, 256 ≤ c) :
    cString ((points ++ [0]).flatMap (charBytes k.width)) ≠ points.flatMap utf8 := by
  intro h
  cases points with
  | nil =>
    obtain ⟨c, hc, -⟩ := hcompact
    cases hc
  | cons c points =>
    have hlens := congrArg List.length h
    have hchar := cString_charBytes k (hunicode c List.mem_cons_self) (hfits c List.mem_cons_self)
    have hrest := cString_points k points (fun x hx => hunicode x (List.mem_cons_of_mem c hx)) fun x hx => hfits x (List.mem_cons_of_mem c hx)
    have happend := cString_append_length (charBytes k.width c) ((points ++ [0]).flatMap (charBytes k.width))
    have hbytes : (c :: points ++ [0]).flatMap (charBytes k.width) =
        charBytes k.width c ++ (points ++ [0]).flatMap (charBytes k.width) := rfl
    have hsecond : (charBytes k.width c ++ (points ++ [0]).flatMap (charBytes k.width))[1]? = some (BitVec.ofNat 8 (c / 256)) := by
      have hlength : (charBytes k.width c).length = k.width := by simp [charBytes]
      rw [List.getElem?_append_left (by omega), charBytes, List.getElem?_map, List.getElem?_range (by omega)]
      rfl
    have hutf8 := utf8_length c
    rw [hbytes, List.flatMap_cons, List.length_append] at hlens
    by_cases hnarrow : c < 256
    · -- the second byte ends the text
      have hcut := cString_length_le (hsecond.trans (by rw [Nat.div_eq_of_lt hnarrow]; rfl))
      have hpoints := length_le_utf8 points
      have hnil : points = [] := List.eq_nil_of_length_eq_zero (by split_ifs at hutf8 <;> omega)
      obtain ⟨x, hx, hwide⟩ := hcompact
      rw [hnil, List.mem_singleton] at hx
      omega
    · by_cases hle : c < 0x800
      · -- the second byte of UTF-8 is no less than 128
        rw [hbytes, List.flatMap_cons, utf8, if_neg (by omega), if_pos hle] at h
        have hsecond' : (cString (charBytes k.width c ++ (points ++ [0]).flatMap (charBytes k.width)))[1]? =
            some (BitVec.ofNat 8 (0x80 + c % 0x40)) := by
          rw [h]
          rfl
        have hsame := getElem?_cString hsecond'
        rw [hsecond, Option.some.injEq, ← BitVec.toNat_inj, BitVec.toNat_ofNat, BitVec.toNat_ofNat] at hsame
        omega
      · have := hchar.2 (by omega)
        omega

def printed (s : PyString) : List Byte := cString (materializeStringConstant 0 s).1

theorem printed_length (s : PyString) : (printed s).length ≤ (s.points.flatMap utf8).length := by
  rw [printed, bytes_eq]
  exact cString_points s.kind s.points s.unicode s.fits

theorem printed_iff {s : PyString} (hcompact : s.Compact) : printed s = s.points.flatMap utf8 ↔ Ascii s.points := by
  rw [printed, bytes_eq]
  cases hk : s.kind with
  | oneByte =>
    have hfits := s.fits
    rw [hk] at hfits
    exact cString_oneByte hfits
  | twoByte | fourByte =>
    have hfits := s.fits
    have hkind := kind_of_ascii hcompact
    unfold PyString.Compact at hcompact
    rw [hk] at hfits hcompact
    have hwide : ∃ c ∈ s.points, 256 ≤ c := by
      obtain ⟨c, hc, hle⟩ := hcompact
      exact ⟨c, hc, by omega⟩
    exact iff_of_false (cString_wide (by decide) s.unicode hfits hwide) fun h => by
      rw [hkind h] at hk
      cases hk

/-! ## Python -/

inductive PyObject where
  | int (n : Int)
  | bool (b : Bool)
  | str (points : List Nat)
  | tuple (items : List PyObject)

section
-- `str.isprintable` of the characters beyond ASCII
variable (printable : Nat → Bool)

def hexDigits : Nat → Nat → List Byte
  | 0, _ => []
  | digits + 1, c => hexDigits digits (c / 16) ++ encode [Nat.digitChar (c % 16)]

def escape (quote c : Nat) : List Byte :=
  if c = quote ∨ c = 0x5c then encode ['\\'] ++ utf8 c
  else if c = 0x09 then encode ['\\', 't']
  else if c = 0x0a then encode ['\\', 'n']
  else if c = 0x0d then encode ['\\', 'r']
  else if 0x20 ≤ c ∧ c < 0x7f ∨ 0x7f < c ∧ printable c then utf8 c
  else if c < 0x100 then encode ['\\', 'x'] ++ hexDigits 2 c
  else if c < 0x10000 then encode ['\\', 'u'] ++ hexDigits 4 c
  else encode ['\\', 'U'] ++ hexDigits 8 c

/-- Single quotes, unless only they occur in the string. -/
def repr (points : List Nat) : List Byte :=
  let quote := if 0x27 ∈ points ∧ 0x22 ∉ points then 0x22 else 0x27
  utf8 quote ++ points.flatMap (escape printable quote) ++ utf8 quote

mutual

/-- `str` of an object, or `repr` of one in a tuple. -/
def pyText (quoted : Bool) : PyObject → List Byte
  | .int n => decimal n
  | .bool b => encode (if b then "True" else "False").toList
  | .str points => if quoted then repr printable points else points.flatMap utf8
  | .tuple items =>
    encode "(".toList ++ joinTexts (encode ", ".toList) true true items ++ (if items.length = 1 then encode ",".toList else []) ++
      encode ")".toList

def joinTexts (sep : List Byte) (quoted first : Bool) : List PyObject → List Byte
  | [] => []
  | item :: items => (if first then [] else sep) ++ pyText quoted item ++ joinTexts sep quoted false items

end

def pythonPrint (args : List PyObject) (sep ending : List Char) : List Byte :=
  joinTexts printable (encode sep) false true args ++ encode ending

end

mutual

def PrintArg.denote : PrintArg → PyObject
  | .literalInteger n => .int n
  | .literalString s _ | .string s _ => .str s.points
  | .integer ty x => .int (value ty.signed x)
  | .boolean b => .bool b
  | .dim3 x y z => .tuple [.int x.val, .int y.val, .int z.val]
  | .tuple items => .tuple (denoteAll items)

def denoteAll : List PrintArg → List PyObject
  | [] => []
  | arg :: args => arg.denote :: denoteAll args

end

section
variable (printable : Nat → Bool)

theorem hexDigits_length (digits c : Nat) : digits ≤ (hexDigits digits c).length := by
  induction digits generalizing c with
  | zero => exact Nat.zero_le _
  | succ digits ih =>
    have hone := length_le_utf8 [(Nat.digitChar (c % 16)).toNat]
    have := ih (c / 16)
    have hencode : encode [Nat.digitChar (c % 16)] = [(Nat.digitChar (c % 16)).toNat].flatMap utf8 := rfl
    rw [hexDigits, List.length_append, hencode]
    rw [List.length_singleton] at hone
    omega

theorem escape_length (quote c : Nat) : (utf8 c).length ≤ (escape printable quote c).length := by
  have hutf8 := utf8_length c
  unfold escape
  split_ifs with hquote htab hline hreturn hplain hbyte hplane
  · rw [List.length_append]
    omega
  · rw [hutf8, if_pos (by omega)]
    decide
  · rw [hutf8, if_pos (by omega)]
    decide
  · rw [hutf8, if_pos (by omega)]
    decide
  · exact le_rfl
  · have := hexDigits_length 2 c
    rw [List.length_append]
    split_ifs at hutf8 <;> omega
  · have := hexDigits_length 4 c
    rw [List.length_append]
    split_ifs at hutf8 <;> omega
  · have := hexDigits_length 8 c
    rw [List.length_append]
    split_ifs at hutf8 <;> omega

theorem repr_length (points : List Nat) : (points.flatMap utf8).length + 2 ≤ (repr printable points).length := by
  have hescape : ∀ quote, (points.flatMap utf8).length ≤ (points.flatMap (escape printable quote)).length := by
    intro quote
    induction points with
    | nil => exact le_rfl
    | cons c points ih =>
      have := escape_length printable quote c
      rw [List.flatMap_cons, List.flatMap_cons, List.length_append, List.length_append]
      omega
  unfold repr
  simp only
  generalize (if 0x27 ∈ points ∧ 0x22 ∉ points then 0x22 else 0x27) = quote
  have hquote := length_le_utf8 [quote]
  rw [List.flatMap_singleton, List.length_singleton] at hquote
  have := hescape quote
  rw [List.length_append, List.length_append]
  omega

/-! ## The parts of an argument -/

def fixed (s : String) : Part := .text (encode s.toList)

@[simp] theorem fixed_piece (s : String) : (fixed s).piece = text s := rfl

@[simp] theorem fixed_args (s : String) : (fixed s).args = [] := rfl

def number (c : Conversion) (n : Fin (2 ^ 31)) : Part := .conversion c (index n) (decimal n.val)

mutual

def valueParts (c : Conversion) (quoted : Bool) : Value → List Part
  | .integer ty x => [.conversion c (.integer ty x) (decimal (value ty.signed x))]
  | .boolean b => [fixed (if b then "True" else "False")]
  | .unicode s _ => [.conversion .s (pointer s) (pyText printable quoted (.str s.points))]
  | .dim3 x y z => [fixed "(", number c x, fixed ", ", number c y, fixed ", ", number c z, fixed ")"]
  | .tuple items =>
    fixed "(" :: joinParts c (fixed ", ") true true items ++ ((if items.length = 1 then [fixed ","] else []) ++ [fixed ")"])

def joinParts (c : Conversion) (sep : Part) (quoted first : Bool) : List Value → List Part
  | [] => []
  | value :: rest => (if first then [] else [sep]) ++ valueParts c quoted value ++ joinParts c sep quoted false rest

end

def printParts (c : Conversion) (args : List Value) (sep ending : List Char) : List Part :=
  joinParts printable c (.text (encode sep)) false true args ++ [.text (encode ending)]

mutual

def Value.hasBoolean : Value → Bool
  | .integer .. | .unicode .. | .dim3 .. => false
  | .boolean _ => true
  | .tuple items => anyBoolean items

def anyBoolean : List Value → Bool
  | [] => false
  | value :: values => value.hasBoolean || anyBoolean values

end

theorem closing_eq (items : List Value) :
    closing items = ((if items.length = 1 then [fixed ","] else []) ++ [fixed ")"]).map Part.piece ∧
      ((if items.length = 1 then [fixed ","] else []) ++ [fixed ")"]).flatMap Part.args = [] := by
  unfold closing
  split <;> exact ⟨rfl, rfl⟩

mutual

theorem getFormatAndValues_eq (quoted : Bool) : ∀ v : Value, getFormatAndValues v =
    if v.hasBoolean then none
    else some ((valueParts printable .lld quoted v).map Part.piece, (valueParts printable .lld quoted v).flatMap Part.args)
  | .integer .. => rfl
  | .boolean _ => rfl
  | .unicode .. => rfl
  | .dim3 .. => rfl
  | .tuple items => by
    have hitems := joinFormats_eq (fixed ", ") rfl true true items
    have hclosing := closing_eq items
    rw [getFormatAndValues, show text ", " = (fixed ", ").piece from rfl, hitems, Value.hasBoolean]
    by_cases hb : anyBoolean items
    · simp [hb]
    · simp [hb, valueParts, hclosing.1, hclosing.2]

theorem joinFormats_eq (sep : Part) (hsep : sep.args = []) (quoted : Bool) : ∀ (first : Bool) (vs : List Value), joinFormats sep.piece first vs =
    if anyBoolean vs then none
    else some ((joinParts printable .lld sep quoted first vs).map Part.piece, (joinParts printable .lld sep quoted first vs).flatMap Part.args)
  | first, [] => rfl
  | first, v :: vs => by
    rw [joinFormats, getFormatAndValues_eq quoted v, joinFormats_eq sep hsep quoted false vs, anyBoolean]
    by_cases hv : v.hasBoolean
    · simp [hv]
    · by_cases hvs : anyBoolean vs
      · simp [hv, hvs]
      · cases first <;> simp [hv, hvs, joinParts, hsep]

end

theorem callOf_singleton (p : Part) : callOf [p] = printf p.piece p.args := by
  rw [callOf, List.flatMap_singleton]
  rfl

mutual

theorem lowerPrintArg_eq (quoted : Bool) : ∀ v : Value,
    lowerPrintArg v = (valueParts printable .d quoted v).map fun p => callOf [p]
  | .integer .. => rfl
  | .boolean _ => rfl
  | .unicode .. => rfl
  | .dim3 .. => rfl
  | .tuple items => by
    have hitems := joinCalls_eq (fixed ", ") rfl true true items
    have hclosing : ((if items.length = 1 then [fixed ","] else []) ++ [fixed ")"]).map (fun p => callOf [p]) = (closing items).map (printf · []) := by
      unfold closing
      split <;> rfl
    rw [lowerPrintArg, show text ", " = (fixed ", ").piece from rfl, hitems, valueParts, List.map_append, List.map_cons, hclosing]
    rfl

theorem joinCalls_eq (sep : Part) (hsep : sep.args = []) (quoted : Bool) : ∀ (first : Bool) (vs : List Value),
    joinCalls sep.piece first vs = (joinParts printable .d sep quoted first vs).map fun p => callOf [p]
  | first, [] => rfl
  | first, v :: vs => by
    rw [joinCalls, lowerPrintArg_eq quoted v, joinCalls_eq sep hsep quoted false vs]
    cases first <;> simp [joinParts, callOf_singleton, hsep]

end

theorem combinedCall_eq (args : List Value) (sep ending : List Char) :
    combinedCall args sep ending = if anyBoolean args then none else some (callOf (printParts printable .lld args sep ending)) := by
  have hjoin := joinFormats_eq printable (.text (encode sep)) rfl false true args
  rw [combinedCall, show Piece.text (encode sep) = (Part.text (encode sep)).piece from rfl, hjoin]
  by_cases hb : anyBoolean args
  · simp [hb]
  · simp [hb, printParts, callOf, Part.piece, Part.args]

theorem separateCalls_eq (args : List Value) (sep ending : List Char) :
    separateCalls args sep ending = (printParts printable .d args sep ending).map fun p => callOf [p] := by
  have hjoin := joinCalls_eq printable (.text (encode sep)) rfl false true args
  rw [separateCalls, show Piece.text (encode sep) = (Part.text (encode sep)).piece from rfl, hjoin, printParts, List.map_append]
  rfl

theorem lowerPrint_eq (args : List PrintArg) (sep ending : List Char) :
    lowerPrint args sep ending = (loadVars args).map fun values =>
      if anyBoolean values then separateCalls values sep ending else [callOf (printParts printable .lld values sep ending)] := by
  unfold lowerPrint
  cases loadVars args with
  | none => rfl
  | some values =>
    simp only [Option.bind_eq_bind, Option.bind_some, Option.map_some, combinedCall_eq printable]
    by_cases hb : anyBoolean values
    · simp [hb]
    · simp [hb]

end

/-! ## When the parts are printed right -/

def Conversion.bits : Conversion → Nat
  | .d => 32
  | .ld | .lld => 64
  | .s => 0

mutual

/-- An integer has as many bits as its conversion reads and is in the signed type of that width; a string is
ASCII without NUL, and not in a tuple. -/
def PrintArg.Prints (bits : Nat) (quoted : Bool) : PrintArg → Prop
  | .literalInteger n => bits = 64 ∧ CInt.InInt64 n
  | .literalString s _ | .string s _ => quoted = false ∧ Ascii s.points
  | .integer ty x => ty.bits = bits ∧ InRange true bits (value ty.signed x)
  | .boolean _ => True
  | .dim3 .. => bits = 64
  | .tuple items => allPrint bits true items

def allPrint (bits : Nat) (quoted : Bool) : List PrintArg → Prop
  | [] => True
  | arg :: args => arg.Prints bits quoted ∧ allPrint bits quoted args

end

section
variable {printable : Nat → Bool}

theorem fixed_texts : ∀ s ∈ ["(", ", ", ",", ")", "True", "False"], percent ∉ encode s.toList ∧ 0 ∉ encode s.toList := by decide

theorem exact_integer {c : Conversion} (hc : c = .d ∨ c = .lld) (ty : IntType) (x : BitVec ty.bits) :
    (Part.conversion c (.integer ty x) (decimal (value ty.signed x))).Exact ↔
      ty.bits = Conversion.bits c ∧ InRange true (Conversion.bits c) (value ty.signed x) := by
  rcases hc with rfl | rfl <;> simp [Part.Exact, Conversion.read, Conversion.bits]

theorem value_index (n : Fin (2 ^ 31)) : value true (BitVec.ofNat 64 n.val) = n.val := by
  have hn := n.isLt
  rw [← BitVec.ofInt_natCast]
  exact (value_ofInt_iff (by decide) true _).mpr ⟨by omega, by omega⟩

theorem exact_number {c : Conversion} (hc : c = .d ∨ c = .lld) (n : Fin (2 ^ 31)) : (number c n).Exact ↔ Conversion.bits c = 64 := by
  have hn := n.isLt
  have hexact := exact_integer hc int64 (BitVec.ofNat 64 n.val)
  have hvalue : value (w := int64.bits) int64.signed (BitVec.ofNat 64 n.val) = n.val := value_index n
  rw [hvalue] at hexact
  rw [number, index, hexact]
  constructor
  · exact fun h => h.1.symm
  · intro h
    rw [h]
    exact ⟨rfl, by omega, by omega⟩

theorem exact_unicode {s : PyString} (hcompact : s.Compact) (quoted : Bool) :
    (Part.conversion .s (pointer s) (pyText printable quoted (.str s.points))).Exact ↔ quoted = false ∧ Ascii s.points := by
  have hread : Conversion.s.read (pointer s) = some (printed s) := rfl
  rw [Part.Exact, hread, Option.some.injEq]
  cases quoted with
  | false => simp [pyText, printed_iff hcompact]
  | true =>
    refine iff_of_false (fun h => ?_) fun h => by cases h.1
    have hlen := congrArg List.length h
    have := printed_length s
    have := repr_length printable s.points
    simp only [pyText, if_true] at hlen
    omega

theorem forall_joinParts {Q : Part → Prop} {c : Conversion} {sep : Part} {quoted : Bool} : ∀ {first : Bool} {vs : List Value},
    (∀ part ∈ joinParts printable c sep quoted first vs, Q part) ↔
      (∀ v ∈ vs, ∀ part ∈ valueParts printable c quoted v, Q part) ∧ ((if first then 2 else 1) ≤ vs.length → Q sep)
  | first, [] => by cases first <;> simp [joinParts]
  | first, v :: vs => by
    have ih := @forall_joinParts Q c sep quoted false vs
    simp only [joinParts, List.forall_mem_append, List.forall_mem_cons, ih]
    cases first <;> cases vs <;> simp <;> tauto

theorem forall_tuple {Q : Part → Prop} (hfixed : ∀ s ∈ ["(", ", ", ",", ")", "True", "False"], Q (fixed s)) {c : Conversion} {quoted : Bool}
    {items : List Value} : (∀ part ∈ valueParts printable c quoted (.tuple items), Q part) ↔
      ∀ v ∈ items, ∀ part ∈ valueParts printable c true v, Q part := by
  have hopen := hfixed "(" (by decide)
  have hcomma := hfixed "," (by decide)
  have hclose := hfixed ")" (by decide)
  have hsep := hfixed ", " (by decide)
  simp only [valueParts, List.forall_mem_append, List.forall_mem_cons, forall_joinParts]
  split <;> simp [hopen, hcomma, hclose, hsep]

mutual

theorem exact_iff {c : Conversion} (hc : c = .d ∨ c = .lld) (quoted : Bool) : ∀ {a : PrintArg} {v : Value}, loadVar a = some v →
    ((∀ part ∈ valueParts printable c quoted v, part.Exact) ↔ a.Prints (Conversion.bits c) quoted)
  | .literalInteger n, v, h => by
    rw [loadVar] at h
    obtain ⟨x, hx, rfl⟩ := Option.map_eq_some_iff.mp h
    obtain ⟨hn, hx⟩ := Option.ite_none_right_eq_some.mp hx
    have hvalue : value (w := int64.bits) int64.signed x = n :=
      Option.some.inj hx ▸ (value_ofInt_iff (show 0 < 64 by decide) true n).mpr hn
    have hexact := exact_integer hc int64 x
    rw [hvalue] at hexact
    simp only [valueParts, List.forall_mem_singleton, PrintArg.Prints, hvalue]
    rw [hexact]
    constructor
    · exact fun h => ⟨h.1.symm, hn⟩
    · intro h
      rw [h.1]
      exact ⟨rfl, hn⟩
  | .literalString s hs, v, h => by
    rw [loadVar, Option.ite_none_right_eq_some] at h
    cases h.2
    simp only [valueParts, List.forall_mem_singleton, exact_unicode hs, PrintArg.Prints]
  | .integer ty x, v, h => by
    cases h
    simp only [valueParts, List.forall_mem_singleton, exact_integer hc, PrintArg.Prints]
  | .boolean b, v, h => by
    cases h
    simp only [valueParts, List.forall_mem_singleton, PrintArg.Prints, iff_true]
    cases b
    · exact (fixed_texts "False" (by decide)).2
    · exact (fixed_texts "True" (by decide)).2
  | .string s hs, v, h => by
    cases h
    simp only [valueParts, List.forall_mem_singleton, exact_unicode hs, PrintArg.Prints]
  | .dim3 x y z, v, h => by
    cases h
    have hopen : (fixed "(").Exact := (fixed_texts "(" (by decide)).2
    have hcomma : (fixed ", ").Exact := (fixed_texts ", " (by decide)).2
    have hclose : (fixed ")").Exact := (fixed_texts ")" (by decide)).2
    simp only [valueParts, List.forall_mem_cons, exact_number hc, PrintArg.Prints, hopen, hcomma, hclose]
    simp
  | .tuple items, v, h => by
    rw [loadVar, Option.map_eq_some_iff] at h
    obtain ⟨vs, hvs, rfl⟩ := h
    rw [forall_tuple fun s hs => (fixed_texts s hs).2, PrintArg.Prints]
    exact exact_all_iff hc true hvs

theorem exact_all_iff {c : Conversion} (hc : c = .d ∨ c = .lld) (quoted : Bool) : ∀ {as : List PrintArg} {vs : List Value},
    loadVars as = some vs → ((∀ v ∈ vs, ∀ part ∈ valueParts printable c quoted v, part.Exact) ↔ allPrint (Conversion.bits c) quoted as)
  | [], vs, h => by
    cases h
    simp [allPrint]
  | a :: as, vs, h => by
    simp only [loadVars, Option.bind_eq_bind, Option.bind_eq_some_iff, Option.some.injEq] at h
    obtain ⟨v, hv, rest, hrest, rfl⟩ := h
    rw [List.forall_mem_cons, exact_iff hc quoted hv, exact_all_iff hc quoted hrest, allPrint]

end

/-! ## The parts altogether -/

theorem loadVars_length : ∀ {as : List PrintArg} {vs : List Value}, loadVars as = some vs → (denoteAll as).length = vs.length
  | [], vs, h => by
    cases h
    rfl
  | a :: as, vs, h => by
    simp only [loadVars, Option.bind_eq_bind, Option.bind_eq_some_iff, Option.some.injEq] at h
    obtain ⟨v, hv, rest, hrest, rfl⟩ := h
    rw [denoteAll, List.length_cons, List.length_cons, loadVars_length hrest]

mutual

theorem wanted_valueParts (c : Conversion) (quoted : Bool) : ∀ {a : PrintArg} {v : Value}, loadVar a = some v →
    wanted (valueParts printable c quoted v) = pyText printable quoted a.denote
  | .literalInteger n, v, h => by
    rw [loadVar] at h
    obtain ⟨x, hx, rfl⟩ := Option.map_eq_some_iff.mp h
    obtain ⟨hn, hx⟩ := Option.ite_none_right_eq_some.mp hx
    have hvalue : value (w := int64.bits) int64.signed x = n :=
      Option.some.inj hx ▸ (value_ofInt_iff (show 0 < 64 by decide) true n).mpr hn
    simp only [valueParts, hvalue]
    exact List.append_nil _
  | .literalString s hs, v, h => by
    rw [loadVar, Option.ite_none_right_eq_some] at h
    cases h.2
    exact List.append_nil _
  | .integer ty x, v, h => by
    cases h
    exact List.append_nil _
  | .boolean b, v, h => by
    cases h
    exact List.append_nil _
  | .string s hs, v, h => by
    cases h
    exact List.append_nil _
  | .dim3 x y z, v, h => by
    cases h
    simp [valueParts, wanted, fixed, number, Part.wanted, PrintArg.denote, pyText, joinTexts]
  | .tuple items, v, h => by
    rw [loadVar, Option.map_eq_some_iff] at h
    obtain ⟨vs, hvs, rfl⟩ := h
    have hitems := wanted_joinParts c (fixed ", ") true true hvs
    have hlen := loadVars_length hvs
    unfold wanted at hitems ⊢
    simp only [valueParts, List.flatMap_append, List.flatMap_cons, hitems, PrintArg.denote, pyText, hlen]
    split <;> simp [fixed, Part.wanted]

theorem wanted_joinParts (c : Conversion) (sep : Part) (quoted : Bool) : ∀ (first : Bool) {as : List PrintArg} {vs : List Value},
    loadVars as = some vs → wanted (joinParts printable c sep quoted first vs) = joinTexts printable sep.wanted quoted first (denoteAll as)
  | first, [], vs, h => by
    cases h
    rfl
  | first, a :: as, vs, h => by
    simp only [loadVars, Option.bind_eq_bind, Option.bind_eq_some_iff, Option.some.injEq] at h
    obtain ⟨v, hv, rest, hrest, rfl⟩ := h
    have hfirst := wanted_valueParts c quoted hv
    have hmore := wanted_joinParts c sep quoted false hrest
    unfold wanted at hfirst hmore ⊢
    simp only [joinParts, List.flatMap_append, hfirst, hmore, denoteAll, joinTexts]
    cases first <;> simp

end

theorem bounded_integer {c : Conversion} (hc : c = .d ∨ c = .lld) (ty : IntType) (x : BitVec ty.bits) :
    (Part.conversion c (.integer ty x) (decimal (value ty.signed x))).Bounded := by
  intro t ht
  rcases hc with rfl | rfl <;> rw [Conversion.read, Option.ite_none_right_eq_some, Option.some.injEq] at ht <;> rw [ht.2]

/-- What is true of all parts that arguments are made of. -/
structure OfParts (printable : Nat → Bool) (c : Conversion) (Q : Part → Prop) : Prop where
  fixed : ∀ s ∈ ["(", ", ", ",", ")", "True", "False"], Q (fixed s)
  integer : ∀ (ty : IntType) (x : BitVec ty.bits), Q (.conversion c (.integer ty x) (decimal (value ty.signed x)))
  number : ∀ n, Q (number c n)
  unicode : ∀ (s : PyString) (quoted : Bool), Q (.conversion .s (pointer s) (pyText printable quoted (.str s.points)))

mutual

theorem OfParts.value {c : Conversion} {Q : Part → Prop} (h : OfParts printable c Q) (quoted : Bool) :
    ∀ v : Value, ∀ part ∈ valueParts printable c quoted v, Q part
  | .integer ty x => List.forall_mem_singleton.mpr (h.integer ty x)
  | .boolean b => by
    cases b
    · exact List.forall_mem_singleton.mpr (h.fixed "False" (by decide))
    · exact List.forall_mem_singleton.mpr (h.fixed "True" (by decide))
  | .unicode s _ => List.forall_mem_singleton.mpr (h.unicode s quoted)
  | .dim3 x y z => by
    have hopen := h.fixed "(" (by decide)
    have hcomma := h.fixed ", " (by decide)
    have hclose := h.fixed ")" (by decide)
    simp [valueParts, h.number, hopen, hcomma, hclose]
  | .tuple items => (forall_tuple h.fixed).mpr (h.all true items)

theorem OfParts.all {c : Conversion} {Q : Part → Prop} (h : OfParts printable c Q) (quoted : Bool) :
    ∀ vs : List Value, ∀ v ∈ vs, ∀ part ∈ valueParts printable c quoted v, Q part
  | [] => by simp
  | v :: vs => List.forall_mem_cons.mpr ⟨h.value quoted v, h.all quoted vs⟩

end

theorem plain_parts (printable : Nat → Bool) (c : Conversion) : OfParts printable c Part.Plain where
  fixed s hs := (fixed_texts s hs).1
  integer _ _ := trivial
  number _ := trivial
  unicode _ _ := trivial

theorem bounded_parts {c : Conversion} (hc : c = .d ∨ c = .lld) : OfParts printable c Part.Bounded where
  fixed _ _ := trivial
  integer ty x := bounded_integer hc ty x
  number n := by
    have hvalue : value (w := int64.bits) int64.signed (BitVec.ofNat 64 n.val) = n.val := value_index n
    have := bounded_integer hc int64 (BitVec.ofNat 64 n.val)
    rwa [hvalue] at this
  unicode s quoted t ht := by
    cases ht
    have hlen := printed_length s
    cases quoted with
    | false => exact hlen
    | true =>
      have hrepr := repr_length printable s.points
      exact hlen.trans (by simp only [pyText, if_true]; omega)

end

/-! ## Counts -/

mutual

def PrintArg.hasBoolean : PrintArg → Bool
  | .literalInteger _ | .literalString .. | .integer .. | .string .. | .dim3 .. => false
  | .boolean _ => true
  | .tuple items => hasBooleans items

def hasBooleans : List PrintArg → Bool
  | [] => false
  | arg :: args => arg.hasBoolean || hasBooleans args

end

mutual

/-- How many values a call is passed for an argument. -/
def PrintArg.valueCount : PrintArg → Nat
  | .literalInteger _ | .literalString .. | .integer .. | .string .. => 1
  | .boolean _ => 0
  | .dim3 .. => 3
  | .tuple items => valueCounts items

def valueCounts : List PrintArg → Nat
  | [] => 0
  | arg :: args => arg.valueCount + valueCounts args

end

section
variable {printable : Nat → Bool}

mutual

theorem hasBoolean_of_loadVar : ∀ {a : PrintArg} {v : Value}, loadVar a = some v → v.hasBoolean = a.hasBoolean
  | .literalInteger n, v, h => by
    obtain ⟨x, -, rfl⟩ := Option.map_eq_some_iff.mp h
    rfl
  | .literalString s hs, v, h => by
    cases (Option.ite_none_right_eq_some.mp h).2
    rfl
  | .integer .., v, h | .boolean _, v, h | .string .., v, h | .dim3 .., v, h => by
    cases h
    rfl
  | .tuple items, v, h => by
    obtain ⟨vs, hvs, rfl⟩ := Option.map_eq_some_iff.mp h
    exact anyBoolean_of_loadVars hvs

theorem anyBoolean_of_loadVars : ∀ {as : List PrintArg} {vs : List Value}, loadVars as = some vs → anyBoolean vs = hasBooleans as
  | [], vs, h => by
    cases h
    rfl
  | a :: as, vs, h => by
    simp only [loadVars, Option.bind_eq_bind, Option.bind_eq_some_iff, Option.some.injEq] at h
    obtain ⟨v, hv, rest, hrest, rfl⟩ := h
    rw [anyBoolean, hasBooleans, hasBoolean_of_loadVar hv, anyBoolean_of_loadVars hrest]

end

mutual

theorem valueCount_of_loadVar (c : Conversion) (quoted : Bool) : ∀ {a : PrintArg} {v : Value}, loadVar a = some v →
    ((valueParts printable c quoted v).flatMap Part.args).length = a.valueCount
  | .literalInteger n, v, h => by
    obtain ⟨x, -, rfl⟩ := Option.map_eq_some_iff.mp h
    rfl
  | .literalString s hs, v, h => by
    cases (Option.ite_none_right_eq_some.mp h).2
    rfl
  | .integer .., v, h | .boolean _, v, h | .string .., v, h | .dim3 .., v, h => by
    cases h
    rfl
  | .tuple items, v, h => by
    obtain ⟨vs, hvs, rfl⟩ := Option.map_eq_some_iff.mp h
    have := @valueCounts_of_loadVars c true (fixed ", ") rfl true _ _ hvs
    rw [valueParts, List.flatMap_append, (closing_eq vs).2, List.append_nil, List.flatMap_cons, fixed_args, List.nil_append, this,
      PrintArg.valueCount]

theorem valueCounts_of_loadVars (c : Conversion) (quoted : Bool) {sep : Part} (hsep : sep.args = []) :
    ∀ (first : Bool) {as : List PrintArg} {vs : List Value}, loadVars as = some vs →
      ((joinParts printable c sep quoted first vs).flatMap Part.args).length = valueCounts as
  | first, [], vs, h => by
    cases h
    rfl
  | first, a :: as, vs, h => by
    simp only [loadVars, Option.bind_eq_bind, Option.bind_eq_some_iff, Option.some.injEq] at h
    obtain ⟨v, hv, rest, hrest, rfl⟩ := h
    have hfirst := valueCount_of_loadVar c quoted hv
    have hmore := valueCounts_of_loadVars c quoted hsep false hrest
    rw [joinParts, List.flatMap_append, List.flatMap_append, List.length_append, List.length_append, hfirst, hmore, valueCounts]
    cases first <;> simp [hsep]

end

theorem materializes_of_ascii {s : PyString} (hcompact : s.Compact) (h : Ascii s.points) : materializes s = true := by
  rw [materializes, bytes_eq, kind_of_ascii hcompact h, List.all_eq_true]
  intro b hb
  obtain ⟨c, hc, hb⟩ := List.mem_flatMap.mp hb
  have hlt : c < 128 := by
    rcases List.mem_append.mp hc with hc | hc
    · exact (h c hc).2
    · rw [List.mem_singleton.mp hc]
      decide
  obtain rfl : b = BitVec.ofNat 8 c := by simpa [charBytes, Kind.width] using hb
  rw [decide_eq_true_eq, BitVec.toNat_ofNat]
  omega

mutual

theorem exists_loadVar {bits : Nat} {quoted : Bool} : ∀ {a : PrintArg}, a.Prints bits quoted → ∃ v, loadVar a = some v
  | .literalInteger n, h => ⟨_, Option.map_eq_some_iff.mpr ⟨_, if_pos h.2, rfl⟩⟩
  | .literalString s hs, h => ⟨_, if_pos (materializes_of_ascii hs h.2)⟩
  | .integer .., _ | .boolean _, _ | .string .., _ | .dim3 .., _ => ⟨_, rfl⟩
  | .tuple items, h => by
    obtain ⟨vs, hvs⟩ := exists_loadVars h
    exact ⟨_, Option.map_eq_some_iff.mpr ⟨vs, hvs, rfl⟩⟩

theorem exists_loadVars {bits : Nat} {quoted : Bool} : ∀ {as : List PrintArg}, allPrint bits quoted as → ∃ vs, loadVars as = some vs
  | [], _ => ⟨[], rfl⟩
  | a :: as, h => by
    obtain ⟨v, hv⟩ := exists_loadVar h.1
    obtain ⟨vs, hvs⟩ := exists_loadVars h.2
    exact ⟨v :: vs, by rw [loadVars, hv, hvs]; rfl⟩

end

end

/-! ## Texts of the caller -/

/-- No directive and no NUL. -/
def Clean (s : List Char) : Prop := '%' ∉ s ∧ '\x00' ∉ s

theorem mem_utf8_iff {b c : Nat} (hb : b < 128) (hc : c < 0x110000) : BitVec.ofNat 8 b ∈ utf8 c ↔ c = b := by
  unfold utf8
  split_ifs <;> simp only [List.mem_cons, List.not_mem_nil, or_false, ← BitVec.toNat_inj, BitVec.toNat_ofNat] <;> omega

theorem char_lt (c : Char) : c.toNat < 0x110000 := by
  rcases c.valid with h | h
  · exact Nat.lt_trans h (by decide)
  · exact h.2

theorem mem_encode_iff {b : Char} (hb : b.toNat < 128) {s : List Char} : BitVec.ofNat 8 b.toNat ∈ encode s ↔ b ∈ s := by
  rw [encode, List.mem_flatMap]
  constructor
  · rintro ⟨c, hc, hmem⟩
    rwa [← Char.toNat_inj.mp ((mem_utf8_iff hb (char_lt c)).mp hmem)]
  · exact fun h => ⟨b, h, (mem_utf8_iff hb (char_lt b)).mpr rfl⟩

theorem clean_iff {s : List Char} : percent ∉ encode s ∧ 0 ∉ encode s ↔ Clean s := by
  have hpercent := mem_encode_iff (b := '%') (by decide) (s := s)
  have hzero := mem_encode_iff (b := '\x00') (by decide) (s := s)
  exact and_congr (not_congr hpercent) (not_congr hzero)

/-! ## What is printed -/

theorem callOf_plain (parts : List Part) : (callOf parts).Plain ↔ ∀ part ∈ parts, part.Plain := by
  unfold Call.Plain callOf
  simp only [List.mem_map]
  constructor
  · intro h part hpart
    cases part with
    | text t => exact h t ⟨_, hpart, rfl⟩
    | conversion c arg w => trivial
  · rintro h t ⟨part, hpart, heq⟩
    cases part with
    | text u =>
      cases heq
      exact h _ hpart
    | conversion c arg w => cases heq

section
variable (printable : Nat → Bool) (args : List PrintArg) (sep ending : List Char)

/-- The text that Python prints, by calls whose own texts hold no directive. -/
def Meets : Prop :=
  ∃ calls, lowerPrint args sep ending = some calls ∧ (∀ call ∈ calls, call.Plain) ∧
    printAll calls = some (pythonPrint printable (denoteAll args) sep ending)

/-- The fallback prints what the single call prints, where there is one. -/
def PathsAgree : Prop :=
  ∀ values call, loadVars args = some values → combinedCall values sep ending = some call →
    printAll (separateCalls values sep ending) = printAll [call]

def Faithful : Prop :=
  allPrint (if hasBooleans args then 32 else 64) false args ∧ (hasBooleans args = false → valueCounts args ≤ 32) ∧
    (2 ≤ args.length → Clean sep) ∧ Clean ending

end

section
variable {printable : Nat → Bool} {args : List PrintArg} {sep ending : List Char} {values : List Value}

theorem forall_printParts {Q : Part → Prop} {c : Conversion} : (∀ part ∈ printParts printable c values sep ending, Q part) ↔
    (∀ v ∈ values, ∀ part ∈ valueParts printable c false v, Q part) ∧ (2 ≤ values.length → Q (.text (encode sep))) ∧
      Q (.text (encode ending)) := by
  rw [printParts, List.forall_mem_append, forall_joinParts, List.forall_mem_singleton, if_pos rfl, and_assoc]

theorem denoteAll_length (as : List PrintArg) : (denoteAll as).length = as.length := by
  induction as with
  | nil => rfl
  | cons a as ih => rw [denoteAll, List.length_cons, List.length_cons, ih]

theorem plain_exact_iff {c : Conversion} (hc : c = .d ∨ c = .lld) (h : loadVars args = some values) :
    ((∀ part ∈ printParts printable c values sep ending, part.Plain) ∧ ∀ part ∈ printParts printable c values sep ending, part.Exact) ↔
      allPrint (Conversion.bits c) false args ∧ (2 ≤ args.length → Clean sep) ∧ Clean ending := by
  have hlen : values.length = args.length := by rw [← loadVars_length h, denoteAll_length]
  have hplain := (plain_parts printable c).all false values
  have hsep := clean_iff (s := sep)
  have hend := clean_iff (s := ending)
  rw [forall_printParts, forall_printParts, exact_all_iff hc false h, hlen, ← hsep, ← hend]
  simp only [Part.Plain, Part.Exact]
  tauto

theorem wanted_printParts (c : Conversion) (h : loadVars args = some values) :
    wanted (printParts printable c values sep ending) = pythonPrint printable (denoteAll args) sep ending := by
  have hjoin := @wanted_joinParts printable c (.text (encode sep)) false true _ _ h
  unfold wanted at hjoin ⊢
  rw [printParts, List.flatMap_append, hjoin, pythonPrint]
  simp [Part.wanted]

theorem printAll_separate (h : loadVars args = some values) (hplain : ∀ part ∈ printParts printable .d values sep ending, part.Plain) :
    printAll (separateCalls values sep ending) = some (pythonPrint printable (denoteAll args) sep ending) ↔
      ∀ part ∈ printParts printable .d values sep ending, part.Exact := by
  have hbounded : ∀ part ∈ printParts printable .d values sep ending, part.Bounded :=
    forall_printParts.mpr ⟨(bounded_parts (.inl rfl)).all false values, fun _ => trivial, trivial⟩
  have hcount : ∀ part : Part, part.args.length ≤ 32 := by
    intro part
    cases part <;> simp [Part.args]
  have hwanted : ((printParts printable .d values sep ending).map fun part => [part]).flatMap wanted =
      pythonPrint printable (denoteAll args) sep ending := by
    rw [← wanted_printParts .d h, wanted, List.flatMap_map]
    simp [wanted]
  have hiff := printAll_iff ((printParts printable .d values sep ending).map fun part => [part])
    (by simpa using hplain) (by simpa using hbounded)
  rw [hwanted, List.map_map] at hiff
  rw [separateCalls_eq printable, show (fun p => callOf [p]) = callOf ∘ fun p : Part => [p] from rfl, hiff]
  simp [hcount]

theorem printAll_combined (h : loadVars args = some values) (hplain : ∀ part ∈ printParts printable .lld values sep ending, part.Plain) :
    printAll [callOf (printParts printable .lld values sep ending)] = some (pythonPrint printable (denoteAll args) sep ending) ↔
      valueCounts args ≤ 32 ∧ ∀ part ∈ printParts printable .lld values sep ending, part.Exact := by
  have hbounded : ∀ part ∈ printParts printable .lld values sep ending, part.Bounded :=
    forall_printParts.mpr ⟨(bounded_parts (.inr rfl)).all false values, fun _ => trivial, trivial⟩
  have hcount : ((printParts printable .lld values sep ending).flatMap Part.args).length = valueCounts args := by
    have hjoin := @valueCounts_of_loadVars printable .lld false (.text (encode sep)) rfl true _ _ h
    rw [printParts, List.flatMap_append, List.length_append, hjoin]
    rfl
  have hiff := printAll_iff [printParts printable .lld values sep ending] (by simpa using hplain) (by simpa using hbounded)
  rw [List.flatMap_singleton, wanted_printParts .lld h, List.forall_mem_singleton, hcount] at hiff
  exact hiff

theorem meets_iff : Meets printable args sep ending ↔ Faithful args sep ending := by
  unfold Meets Faithful
  rw [lowerPrint_eq printable]
  cases hload : loadVars args with
  | none =>
    refine iff_of_false (by simp) fun h => ?_
    obtain ⟨vs, hvs⟩ := exists_loadVars h.1
    rw [hload] at hvs
    cases hvs
  | some values =>
    rw [← anyBoolean_of_loadVars hload]
    simp only [Option.map_some, Option.some.injEq, exists_eq_left']
    by_cases hb : anyBoolean values
    · have hcalls : (∀ call ∈ separateCalls values sep ending, call.Plain) ↔ ∀ part ∈ printParts printable .d values sep ending, part.Plain := by
        rw [separateCalls_eq printable, List.forall_mem_map]
        simp [callOf_plain]
      have hiff := @plain_exact_iff printable args sep ending values .d (.inl rfl) hload
      rw [if_pos hb, if_pos hb, hcalls]
      refine (and_congr_right fun hplain => printAll_separate hload hplain).trans (hiff.trans ?_)
      simp [hb, Conversion.bits]
    · have hiff := @plain_exact_iff printable args sep ending values .lld (.inr rfl) hload
      rw [if_neg hb, if_neg hb, List.forall_mem_singleton, callOf_plain]
      refine (and_congr_right fun hplain => printAll_combined hload hplain).trans ?_
      simp only [Conversion.bits] at hiff
      simp only [Bool.not_eq_true] at hb
      rw [hb]
      tauto

theorem pathsAgree_iff (h : loadVars args = some values) : PathsAgree args sep ending ↔ (anyBoolean values = false →
    printAll (separateCalls values sep ending) = printAll [callOf (printParts printable .lld values sep ending)]) := by
  constructor
  · intro hall hb
    exact hall values _ h (by rw [combinedCall_eq printable, if_neg (Bool.not_eq_true _ ▸ hb)])
  · intro hall vs call hvs hcall
    rw [h, Option.some.injEq] at hvs
    subst hvs
    rw [combinedCall_eq printable, Option.ite_none_left_eq_some, Option.some.injEq, Bool.not_eq_true] at hcall
    rw [← hcall.2]
    exact hall hcall.1

/-- The two paths agree where no number is printed, which they read with different widths. -/
theorem print_meets_iff : (Meets printable args sep ending ↔ Faithful args sep ending) ∧
    (Meets printable args sep ending ∧ PathsAgree args sep ending ↔
      Faithful args sep ending ∧ (hasBooleans args = false → allPrint 32 false args)) := by
  refine ⟨meets_iff, ?_⟩
  rw [← @meets_iff printable]
  refine and_congr_right fun h => ?_
  obtain ⟨hprints, hcount, hsep, hend⟩ := meets_iff.mp h
  obtain ⟨values, hload⟩ := exists_loadVars hprints
  rw [@pathsAgree_iff printable args sep ending values hload, ← anyBoolean_of_loadVars hload]
  rw [← anyBoolean_of_loadVars hload] at hprints hcount
  refine forall_congr' fun hb => ?_
  have hd := @plain_exact_iff printable args sep ending values .d (.inl rfl) hload
  have hlld := @plain_exact_iff printable args sep ending values .lld (.inr rfl) hload
  rw [hb] at hprints
  obtain ⟨hplain, hexact⟩ := hlld.mpr ⟨hprints, hsep, hend⟩
  have hplain' : ∀ part ∈ printParts printable .d values sep ending, part.Plain :=
    forall_printParts.mpr ⟨(plain_parts printable .d).all false values, (forall_printParts.mp hplain).2⟩
  rw [(printAll_combined hload hplain).mpr ⟨hcount hb, hexact⟩, printAll_separate hload hplain']
  constructor
  · exact fun hall => (hd.mp ⟨hplain', hall⟩).1
  · exact fun hall => (hd.mpr ⟨hall, hsep, hend⟩).2

end

/-- `print(1, 2, sep="%")`, and `print` of an `int32`, which the conversion reads as 64 bits. -/
theorem print_percent_separator :
    (lowerPrint [.literalInteger 1, .literalInteger 2] ['%'] ['\n']).bind printAll = some (encode ['1', '%', 'l', 'l', 'd', '\n']) ∧
    pythonPrint (fun _ => true) (denoteAll [.literalInteger 1, .literalInteger 2]) ['%'] ['\n'] = encode ['1', '%', '2', '\n'] ∧
    (lowerPrint [.integer ⟨true, .w32⟩ 5] [' '] ['\n']).bind printAll = none ∧
    pythonPrint (fun _ => true) (denoteAll [.integer ⟨true, .w32⟩ 5]) [' '] ['\n'] = encode ['5', '\n'] := by
  decide

end NumbaCudaMlir.Print
