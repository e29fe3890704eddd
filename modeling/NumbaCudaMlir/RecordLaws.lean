import NumbaCudaMlir.Record
import NumbaCudaMlir.RecordArraySound

/-!
# Store laws of record fields

What is assigned to a field, or to an element of a nested array, reads back
converted to its type, and nothing else changes. Which assignments keep these
laws depends on the types alone: signs are lost on the way to the field, a
record is assigned by its address, and negative indices are extended by zeros.
-/

namespace NumbaCudaMlir.Record

open ArrayIndex ByteMemory CInt MachineInt
open RecordArray (IndexKind HasKind)
open Aggregate (FloatWidth)

/-! ## What a field shows -/

inductive Observation where
  | value (v : Value)
  | bytes (n : Nat)

/-- A record shows its bytes. -/
def ItemType.observe (m : Memory) : ItemType → Value → Observation
  | .record size, .pointer a => .bytes (load m a size)
  | _, v => .value v

def FieldType.observe (m : Memory) : FieldType → Value → Observation
  | .item t, v => t.observe m v
  | .nestedArray dtype shape _, .pointer a => .bytes (load m a (dtype.size * shape.prod))
  | .nestedArray .., v => .value v

def observeItem (m : Memory) (a : BitVec 64) (t : ItemType) : Observation := t.observe m (loadItem m a t)

inductive Route where
  | attr (name : String)
  | key (name : String)
  | position (index : Int)

def Route.names (R : RecordType) : Route → Option String
  | attr name | key name => some name
  | position index => fieldNameAt R index

def lowerGet (R : RecordType) (m : Memory) (p : BitVec 64) : Route → Option Value
  | .attr name => lowerRecordGetattr R m p name
  | .key name => lowerRecordStaticGetitemStr R m p name
  | .position index => lowerRecordStaticGetitemInt R m p index

def read (R : RecordType) (m : Memory) (p : BitVec 64) (r : Route) : Option Observation := do
  let v ← lowerGet R m p r
  let name ← r.names R
  let f ← R.fields.get name
  return f.type.observe m v

/-- An element of the nested array that a route gives. -/
def readElement (R : RecordType) (m : Memory) (p : BitVec 64) (r : Route) (dtype : ItemType) (shape : List Nat) (index : Index) :
    Option Observation := do
  match ← lowerGet R m p r with
  | .pointer basePtr => some (dtype.observe m (lowerNestedArrayGetitem m basePtr dtype shape index))
  | _ => none

inductive SetRoute where
  | attr
  | key

section
variable (resize : (f g : FloatWidth) → BitVec f.bits → BitVec g.bits)

def lowerSet (R : RecordType) (m : Memory) (p : BitVec 64) (name : String) (source : Source) : SetRoute → Option Memory
  | .attr => lowerRecordSetattr resize R m p name source
  | .key => lowerRecordStaticSetitemStr resize R m p name source

def setElement (R : RecordType) (m : Memory) (p : BitVec 64) (r : Route) (dtype : ItemType) (shape : List Nat) (index : Index)
    (v : Value) : Option Memory := do
  match ← lowerGet R m p r with
  | .pointer basePtr => lowerNestedArraySetitem resize m basePtr dtype shape index v
  | _ => none

/-! ## Laws -/

def ItemType.signed : ItemType → Bool
  | integer t => t.signed
  | _ => false

/-- A number, converted by what it means in its own type. -/
def cast (s t : ItemType) : Value → Option Value
  | .int _ x =>
    let n := value s.signed x
    match t with
    | .integer t => some (.int t.bits (BitVec.ofInt t.bits n))
    | .float f => some (.float f (integerToFloat f n))
    | .complex f => some (.complex f (integerToFloat f n) 0)
    | .boolean => some (.int 1 (BitVec.ofBool (n ≠ 0)))
    | .record _ => none
  | .float g x =>
    match t with
    | .integer t => (fpToInt t.signed t.bits (BinaryFloat.decode g.format x.toNat)).map (.int t.bits)
    | .float f => some (.float f (convertFloat resize g f x))
    | .complex f => some (.complex f (convertFloat resize g f x) 0)
    | .boolean => some (.int 1 (BitVec.ofBool (BinaryFloat.decode g.format x.toNat ≠ .finite 0)))
    | .record _ => none
  | .complex g re im =>
    match t with
    | .complex f => some (.complex f (convertFloat resize g f re) (convertFloat resize g f im))
    | .integer _ | .float _ | .boolean | .record _ => none
  | .pointer _ => none

/-- What a field or an element of the type `t` shows after an assignment. -/
def expected (m : Memory) (s t : ItemType) (v : Value) : Option Observation :=
  match s, t, v with
  | .record size, .record size', .pointer src => if size = size' then some (.bytes (load m src size)) else none
  | s, t, v => (cast resize s t v).map .value

/-- Other fields and the bytes outside the record are as before. -/
structure Keeps (R : RecordType) (p : BitVec 64) (name : String) (m m' : Memory) : Prop where
  others : ∀ r : Route, r.names R ≠ some name → read R m' p r = read R m p r
  outside : ∀ a : BitVec 64, R.size ≤ (a - p).toNat → m' a = m a

def ItemLaws (R : RecordType) (name : String) (s t : ItemType) : Prop :=
  ∀ (m : Memory) (p : BitVec 64) (v : Value) (o : Observation) (route : SetRoute), v.type = s.toMlir → expected resize m s t v = some o →
    ∃ m', lowerSet resize R m p name (.value v) route = some m' ∧ Keeps R p name m m' ∧
      ∀ r : Route, r.names R = some name → read R m' p r = some o

inductive SourceKind where
  | memref
  | pointer
  deriving DecidableEq

def Source.HasKind (source : Source) (shape : List Nat) : SourceKind → Prop
  | .memref => ∃ data strides, source = .memref data strides ∧ strides.length = shape.length
  | .pointer => ∃ src, source = .value (.pointer src)

def elementAddress (base : BitVec 64) (dtype : ItemType) (shape : List Nat) (coords : List Int) : BitVec 64 :=
  base + BitVec.ofInt 64 (Strided.dot coords ((strides dtype.size shape).map Nat.cast))

def Source.address (dtype : ItemType) (shape : List Nat) (coords : List Int) : Source → BitVec 64
  | memref data strides => sourceAddress data (memrefElementBytes dtype) strides coords
  | value (.pointer src) => elementAddress src dtype shape coords
  | value _ => 0

def InShape (shape : List Nat) (coords : List Int) : Prop := Strided.InRange (shape.map Nat.cast) coords

def HasKinds (index : Index) (shape : List Nat) (kinds : List IndexKind) : Prop :=
  List.Forall₂ HasKind index.args kinds ∧ ArrayIndex.InRange shape index.args

def ArrayLaws (R : RecordType) (name : String) (offset : Nat) (dtype : ItemType) (shape : List Nat) (kind : SourceKind)
    (kinds : List IndexKind) : Prop :=
  ∀ (m : Memory) (p : BitVec 64) (source : Source) (route : SetRoute), source.HasKind shape kind →
    (∀ c, InShape shape c →
      Apart (source.address dtype shape c) dtype.size (p + BitVec.ofNat 64 offset) (dtype.size * shape.prod)) →
    ∃ m', lowerSet resize R m p name source route = some m' ∧ Keeps R p name m m' ∧
      ∀ (r : Route) (index : Index), r.names R = some name → HasKinds index shape kinds →
        readElement R m' p r dtype shape index =
          some (observeItem m (source.address dtype shape (coordinates shape index.args)) dtype)

def ElementLaws (R : RecordType) (name : String) (offset : Nat) (s dtype : ItemType) (shape : List Nat) (kinds : List IndexKind) : Prop :=
  ∀ (m : Memory) (p : BitVec 64) (v : Value) (o : Observation) (r : Route) (index : Index), v.type = s.toMlir →
    expected resize m s dtype v = some o → r.names R = some name → HasKinds index shape kinds →
    ∃ m', setElement resize R m p r dtype shape index v = some m' ∧ Keeps R p name m m' ∧
      readElement R m' p r dtype shape index = some o ∧
      ∀ c, InShape shape c → observeItem m' (elementAddress (p + BitVec.ofNat 64 offset) dtype shape c) dtype =
        if c = coordinates shape index.args then o
        else observeItem m (elementAddress (p + BitVec.ofNat 64 offset) dtype shape c) dtype

/-- An assignment to a field, with the type of the value, or for a nested array
with the kind of the source and of the indices it is read with, or to an element. -/
inductive Assignment where
  | item (s : ItemType)
  | array (kind : SourceKind) (kinds : List IndexKind)
  | element (s : ItemType) (kinds : List IndexKind)

def StoreLaws (R : RecordType) (name : String) (f : Field) : Assignment → Prop
  | .item s => match f.type with
    | .item t => ItemLaws resize R name s t
    | .nestedArray .. => True
  | .array kind kinds => match f.type with
    | .item _ => True
    | .nestedArray dtype shape _ => ArrayLaws resize R name f.offset dtype shape kind kinds
  | .element s kinds => match f.type with
    | .item _ => True
    | .nestedArray dtype shape _ => ElementLaws resize R name f.offset s dtype shape kinds

end

/-! ## Conditions -/

/-- The conversion keeps what the number means. -/
def Converts : ItemType → ItemType → Prop
  | .integer a, .integer b => a.signed = false ∨ b.bits ≤ a.bits
  | .integer a, .float _ | .integer a, .complex _ => a.signed = true
  | .float g, .integer b => b.signed = true ∨ g.format.maxExponent < b.bits
  | _, _ => True

/-- The `n` bytes from the field on belong to no other field. -/
def Confined (R : RecordType) (name : String) (offset n : Nat) : Prop :=
  offset + n ≤ R.size ∧ ∀ name' f', name' ≠ name → R.fields.get name' = some f' →
    ∀ i < n, ∀ j < f'.type.size, offset + i ≠ f'.offset + j

/-- A record is stored as a pointer to it. -/
def Stores (R : RecordType) (name : String) (offset : Nat) : ItemType → ItemType → Prop
  | .record size, .record size' => size = size' → size = 0 ∧ Confined R name offset 8
  | s, t => Converts s t

/-- No extent above one is followed by ones alone. -/
def Unravels : List Nat → Prop
  | [] => True
  | n :: shape => (n ≤ 1 ∨ shape = [] ∨ shape.prod ≠ 1) ∧ Unravels shape

def Extends (size : Nat) : List Nat → List IndexKind → Prop
  | n :: shape, kind :: kinds => kind.Extends n (size * shape.prod) ∧ Extends size shape kinds
  | _, _ => True

/-- The bytes that the loop copies for an element; `none` where they cannot be loaded. -/
def copiedBytes (dtype : ItemType) : SourceKind → Option Nat
  | .memref => some (memrefElementBytes dtype)
  | .pointer => match dtype with
    | .complex _ => none
    | .record _ => some 8
    | .integer _ | .float _ | .boolean => some dtype.size

def Sound (R : RecordType) (name : String) (f : Field) : Assignment → Prop
  | .item s => match f.type with
    | .item t => Stores R name f.offset s t
    | .nestedArray .. => True
  | .array kind kinds => match f.type with
    | .item _ => True
    | .nestedArray dtype shape _ => ∃ bytes, copiedBytes dtype kind = some bytes ∧
      (shape.prod = 0 ∨ bytes = dtype.size ∧ Unravels shape ∧ Extends dtype.size shape kinds)
  | .element s kinds => match f.type with
    | .item _ => True
    | .nestedArray dtype shape _ => shape.prod = 0 ∨ Stores R name f.offset s dtype ∧ Extends dtype.size shape kinds

def Overcopies (f : Field) : Assignment → Prop
  | .array kind _ => match f.type with
    | .item _ => False
    | .nestedArray dtype _ _ => ∃ bytes, copiedBytes dtype kind = some bytes ∧ dtype.size < bytes
  | .item _ | .element .. => False

def Castable : ItemType → ItemType → Prop
  | .record size, .record size' => size = size'
  | .complex _, .complex _ => True
  | .record _, _ | .complex _, _ | _, .record _ => False
  | _, _ => True

def Typed (f : Field) : Assignment → Prop
  | .item s => match f.type with
    | .item t => Castable s t
    | .nestedArray .. => False
  | .array _ kinds => match f.type with
    | .item _ => False
    | .nestedArray _ shape _ => kinds.length = shape.length
  | .element s kinds => match f.type with
    | .item _ => False
    | .nestedArray dtype shape _ => Castable s dtype ∧ kinds.length = shape.length

/-! ## Items in memory -/

def ItemType.IsNumber (t : ItemType) : Prop := ∀ size, t ≠ .record size

def ItemType.show (t : ItemType) (x : Nat) : Observation :=
  match t with
  | .integer t => .value (.int t.bits (BitVec.ofNat t.bits x))
  | .float w => .value (.float w (BitVec.ofNat w.bits x))
  | .complex w => .value (.complex w (BitVec.ofNat w.bits x) (BitVec.ofNat w.bits (x / 2 ^ w.bits)))
  | .boolean => .value (.int 1 (BitVec.ofBool (x != 0)))
  | .record _ => .bytes x

theorem observeItem_eq (m : Memory) (a : BitVec 64) (t : ItemType) : observeItem m a t = t.show (load m a t.size) := by
  cases t <;> rfl

theorem eight_mul_bytes (t : IntType) : 8 * (t.bits / 8) = t.bits := by cases h : t.width <;> simp [IntType.bits, h, Width.bits]

theorem pow_bits_integer (t : IntType) : 256 ^ (t.bits / 8) = 2 ^ t.bits := by
  rw [show 256 = 2 ^ 8 from rfl, ← Nat.pow_mul, eight_mul_bytes]

theorem pow_bits_float (w : FloatWidth) : 256 ^ (w.bits / 8) = 2 ^ w.bits := by cases w <;> decide

theorem pow_bits_complex (w : FloatWidth) : 256 ^ (2 * (w.bits / 8)) = 2 ^ w.bits * 2 ^ w.bits := by
  rw [Nat.two_mul, Nat.pow_add, pow_bits_float]

theorem show_inj {t : ItemType} (ht : t ≠ .boolean) {x y : Nat} (hx : x < 256 ^ t.size) (hy : y < 256 ^ t.size) :
    t.show x = t.show y ↔ x = y := by
  refine ⟨fun h => ?_, fun h => h ▸ rfl⟩
  cases t with
  | integer t =>
    rw [ItemType.size, pow_bits_integer] at hx hy
    simpa [ItemType.show, ← BitVec.toNat_inj, Nat.mod_eq_of_lt hx, Nat.mod_eq_of_lt hy] using h
  | float w =>
    rw [ItemType.size, pow_bits_float] at hx hy
    simpa [ItemType.show, ← BitVec.toNat_inj, Nat.mod_eq_of_lt hx, Nat.mod_eq_of_lt hy] using h
  | complex w =>
    rw [ItemType.size, pow_bits_complex] at hx hy
    have hdx := Nat.div_lt_of_lt_mul hx
    have hdy := Nat.div_lt_of_lt_mul hy
    simp only [ItemType.show, Observation.value.injEq, Value.complex.injEq, heq_eq_eq, true_and, ← BitVec.toNat_inj,
      BitVec.toNat_ofNat, Nat.mod_eq_of_lt hdx, Nat.mod_eq_of_lt hdy] at h
    rw [← Nat.div_add_mod x (2 ^ w.bits), ← Nat.div_add_mod y (2 ^ w.bits), h.1, h.2]
  | boolean => exact absurd rfl ht
  | record size => simpa [ItemType.show] using h

theorem show_toNat {t : ItemType} (ht : t.IsNumber) {v : Value} (h : v.type = t.toMlir) :
    t.show v.toNat = .value v ∧ v.bytes = t.size ∧ v.toNat < 256 ^ t.size := by
  cases t with
  | integer t =>
    cases v with
    | int bits x =>
      cases h
      refine ⟨by simp [ItemType.show, Value.toNat], ?_, ?_⟩
      · have := eight_mul_bytes t
        rw [Value.bytes, ItemType.size]
        omega
      · rw [ItemType.size, pow_bits_integer]
        exact x.isLt
    | float | complex | pointer => cases h
  | float w =>
    cases v with
    | float w x =>
      cases h
      refine ⟨by simp [ItemType.show, Value.toNat], rfl, ?_⟩
      rw [ItemType.size, pow_bits_float]
      exact x.isLt
    | int | complex | pointer => cases h
  | complex w =>
    cases v with
    | complex w re im =>
      cases h
      have hdiv : (re.toNat + 2 ^ w.bits * im.toNat) / 2 ^ w.bits = im.toNat := by
        rw [Nat.add_mul_div_left _ _ (Nat.two_pow_pos _), Nat.div_eq_of_lt re.isLt, Nat.zero_add]
      refine ⟨?_, rfl, ?_⟩
      · simp only [ItemType.show, Value.toNat, hdiv, BitVec.ofNat_toNat, BitVec.setWidth_eq]
        congr 2
        apply BitVec.eq_of_toNat_eq
        rw [BitVec.toNat_ofNat, Nat.add_mul_mod_self_left, Nat.mod_eq_of_lt re.isLt]
      · rw [ItemType.size, pow_bits_complex]
        have := Nat.mul_le_mul_left (2 ^ w.bits) (Nat.succ_le_of_lt im.isLt)
        have hre := re.isLt
        rw [Nat.mul_succ] at this
        rw [Value.toNat]
        omega
    | int | float | pointer => cases h
  | boolean =>
    cases v with
    | int bits x =>
      cases h
      refine ⟨?_, rfl, x.isLt.trans (by decide)⟩
      have hcases : x = 0 ∨ x = 1 := by
        have := x.isLt
        simp only [← BitVec.toNat_inj]
        simp
        omega
      rcases hcases with rfl | rfl <;> rfl
    | float | complex | pointer => cases h
  | record size => exact absurd rfl (ht size)

/-! ## Fields -/

section
variable {R : RecordType} {name : String} {f : Field} (hf : R.fields.get name = some f)
include hf

theorem offset_lt : f.offset < 2 ^ 56 := by
  have := R.field_le name f hf
  have := R.size_lt
  omega

theorem getRecordFieldPtr_eq (p : BitVec 64) : getRecordFieldPtr R p name = some (p + BitVec.ofNat 64 f.offset, f.type) := by
  have := offset_lt hf
  rw [getRecordFieldPtr, hf, Option.bind_eq_bind, Option.bind_some, RecordArray.integerAttr_natCast (by omega), Option.bind_eq_bind,
    Option.bind_some, BitVec.ofInt_natCast]
  rfl

theorem lowerGet_eq {r : Route} (hr : r.names R = some name) (m : Memory) (p : BitVec 64) :
    lowerGet R m p r = some (loadField m (p + BitVec.ofNat 64 f.offset) f.type) := by
  cases r with
  | attr =>
    cases hr
    rw [lowerGet, lowerRecordGetattr, getRecordFieldPtr_eq hf]
    rfl
  | key =>
    cases hr
    rw [lowerGet, lowerRecordStaticGetitemStr, getRecordFieldPtr_eq hf]
    rfl
  | position =>
    rw [lowerGet, lowerRecordStaticGetitemInt, show fieldNameAt R _ = some name from hr, Option.bind_eq_bind, Option.bind_some,
      getRecordFieldPtr_eq hf]
    rfl

theorem read_eq {r : Route} (hr : r.names R = some name) (m : Memory) (p : BitVec 64) :
    read R m p r = some (f.type.observe m (loadField m (p + BitVec.ofNat 64 f.offset) f.type)) := by
  rw [read, lowerGet_eq hf hr, hr, Option.bind_eq_bind, Option.bind_some, Option.bind_eq_bind, Option.bind_some, hf]
  rfl

theorem confined_self : Confined R name f.offset f.type.size :=
  ⟨R.field_le name f hf, fun name' f' hne hf' => R.disjoint name name' f f' hf hf' hne.symm⟩

end

theorem read_eq_none {R : RecordType} {r : Route} (h : ∀ name f, r.names R = some name → R.fields.get name ≠ some f) (m : Memory)
    (p : BitVec 64) : read R m p r = none := by
  cases hn : r.names R with
  | none => simp [read, hn]
  | some name =>
    have hget : R.fields.get name = none := Option.eq_none_iff_forall_ne_some.mpr fun f => h name f hn
    simp [read, hn, hget]

theorem observe_congr {type : FieldType} {m m' : Memory} {a a' : BitVec 64} (h : load m a type.size = load m' a' type.size) :
    type.observe m (loadField m a type) = type.observe m' (loadField m' a' type) := by
  cases type with
  | item t =>
    change observeItem m a t = observeItem m' a' t
    rw [observeItem_eq, observeItem_eq]
    exact congrArg t.show h
  | nestedArray dtype shape => exact congrArg Observation.bytes h

theorem keeps_of_confined {R : RecordType} {p : BitVec 64} {name : String} {offset n : Nat} {m m' : Memory}
    (hc : Confined R name offset n) (h : ∀ b, n ≤ (b - (p + BitVec.ofNat 64 offset)).toNat → m' b = m b) : Keeps R p name m m' := by
  have hsize := R.size_lt
  have hn : n ≤ 2 ^ 64 := by
    have := hc.1
    omega
  constructor
  · intro r hr
    by_cases hex : ∃ name' f', r.names R = some name' ∧ R.fields.get name' = some f'
    · obtain ⟨name', f', hr', hf'⟩ := hex
      have hne : name' ≠ name := by
        rintro rfl
        exact hr hr'
      have hle := R.field_le name' f' hf'
      rw [read_eq hf' hr', read_eq hf' hr']
      refine congrArg some (observe_congr (load_congr fun j hj => h _ ?_))
      by_contra hlt
      obtain ⟨i, hi, he⟩ := (sub_toNat_lt_iff hn).mp (Nat.lt_of_not_le hlt)
      rw [add_ofNat_add, add_ofNat_add, add_ofNat_inj p (by omega) (by have := hc.1; omega)] at he
      exact hc.2 name' f' hne hf' i hi j hj he.symm
    · push Not at hex
      rw [read_eq_none hex, read_eq_none hex]
  · intro a ha
    refine h a ?_
    by_contra hlt
    obtain ⟨i, hi, he⟩ := (sub_toNat_lt_iff hn).mp (Nat.lt_of_not_le hlt)
    have := hc.1
    rw [add_ofNat_add] at he
    rw [he, add_ofNat_sub_toNat p (by omega)] at ha
    omega

end NumbaCudaMlir.Record
