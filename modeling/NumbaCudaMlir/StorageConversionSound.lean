import Mathlib.Data.Rat.Floor
import Mathlib.Tactic.NormNum
import NumbaCudaMlir.StorageConversion

/-!
# Storage conversion is lossless

A conversion of the members of a struct or a tuple brings every value back where
the one of each scalar in it does, and the `llvm` dialect takes the members of the
structs. The scalars are brought back unless they are of the kinds that are not
stored by their bits.
-/

namespace NumbaCudaMlir.StorageConversion

/-- Values of one type go to values of the other and back. -/
def Lossless (source target : Option ReprType) (there back : Value → Option Value) : Prop :=
  ∃ t t', source = some t ∧ target = some t' ∧ ∀ v : Value, v.type = t → ∃ s, there v = some s ∧ s.type = t' ∧ back s = some v

/-! ## Types and values -/

mutual

def Value.zero : ReprType → Value
  | .scalar t => .scalar t 0
  | .struct ts => .struct (Value.zeros ts)
  | .tuple ts => .tuple (Value.zeros ts)

def Value.zeros : List ReprType → List Value
  | [] => []
  | t :: ts => Value.zero t :: Value.zeros ts

end

mutual

theorem type_zero : ∀ t : ReprType, (Value.zero t).type = t
  | .scalar _ => rfl
  | .struct ts => congrArg ReprType.struct (types_zeros ts)
  | .tuple ts => congrArg ReprType.tuple (types_zeros ts)

theorem types_zeros : ∀ ts : List ReprType, Value.types (Value.zeros ts) = ts
  | [] => rfl
  | t :: ts => by
    unfold Value.zeros Value.types
    rw [type_zero t, types_zeros ts]

end

theorem Value.of_scalar {v : Value} {t : ScalarType} (h : v.type = .scalar t) : ∃ bits, v = .scalar t bits := by
  cases v with
  | scalar u bits =>
    obtain rfl := ReprType.scalar.inj h
    exact ⟨bits, rfl⟩
  | struct fields => cases h
  | tuple items => cases h

theorem Value.of_struct {v : Value} {ts : List ReprType} (h : v.type = .struct ts) : ∃ fields, v = .struct fields ∧ Value.types fields = ts := by
  cases v with
  | scalar u bits => cases h
  | struct fields => exact ⟨fields, rfl, ReprType.struct.inj h⟩
  | tuple items => cases h

theorem Value.of_tuple {v : Value} {ts : List ReprType} (h : v.type = .tuple ts) : ∃ items, v = .tuple items ∧ Value.types items = ts := by
  cases v with
  | scalar u bits => cases h
  | struct fields => cases h
  | tuple items => exact ⟨items, rfl, ReprType.tuple.inj h⟩

theorem Value.of_types_nil {vs : List Value} (h : Value.types vs = []) : vs = [] := by
  cases vs with
  | nil => rfl
  | cons v vs => cases h

theorem Value.of_types_cons {vs : List Value} {t : ReprType} {ts : List ReprType} (h : Value.types vs = t :: ts) :
    ∃ v us, vs = v :: us ∧ v.type = t ∧ Value.types us = ts := by
  cases vs with
  | nil => cases h
  | cons v us => exact ⟨v, us, rfl, (List.cons.inj h).1, (List.cons.inj h).2⟩

theorem isMlir_of_compatible {takes : FloatType → Bool} {t : ReprType} (h : t.compatible takes = true) : t.isMlir = true := by
  cases t with
  | scalar t => rfl
  | struct ts => rfl
  | tuple ts => cases h

theorem getLiteral_eq {ts : List ReprType} {t : ReprType} (h : getLiteral ts = some t) : t = .struct ts := by
  unfold getLiteral at h
  split at h
  · exact (Option.some.inj h).symm
  · cases h

theorem getLiteral_of_compatible {takes : FloatType → Bool} : ∀ {ts : List ReprType}, ReprType.allCompatible takes ts = true →
    getLiteral ts = some (.struct ts) := by
  have hall : ∀ {ts : List ReprType}, ReprType.allCompatible takes ts = true → ts.all ReprType.isMlir = true := by
    intro ts
    induction ts with
    | nil => exact fun _ => rfl
    | cons t ts ih =>
      intro h
      obtain ⟨ht, hts⟩ := (Bool.and_eq_true _ _).mp h
      rw [List.all_cons, isMlir_of_compatible ht, ih hts]
      rfl
  intro ts h
  rw [getLiteral, if_pos (hall h)]

/-! ## Members -/

section
variable (stored : Kind → Prop) (takes : FloatType → Bool) (source target : Kind → ScalarType)

/-- The `llvm` dialect takes both types of a member. -/
def Ty.Taken (m : Ty) : Prop :=
  ∃ t t', m.reprType source = some t ∧ m.reprType target = some t' ∧ t.compatible takes = true ∧ t'.compatible takes = true

mutual

/-- All scalars of the type are stored, and the members of its structs taken. -/
def Ty.Storable : Ty → Prop
  | scalar k => stored k
  | struct ms => Ty.FieldsStorable ms
  | tuple ms => Ty.ItemsStorable ms

def Ty.FieldsStorable : List Ty → Prop
  | [] => True
  | m :: ms => m.Storable ∧ m.Taken takes source target ∧ Ty.FieldsStorable ms

def Ty.ItemsStorable : List Ty → Prop
  | [] => True
  | m :: ms => m.Storable ∧ Ty.ItemsStorable ms

end

end

section
variable {stored : Kind → Prop} {takes : FloatType → Bool} {source target : Kind → ScalarType} {there back : Kind → Value → Option Value}

theorem fields_taken : ∀ {ms : List Ty}, Ty.FieldsStorable stored takes source target ms →
    ∃ ts ts', Ty.reprTypes source ms = some ts ∧ Ty.reprTypes target ms = some ts' ∧
      ReprType.allCompatible takes ts = true ∧ ReprType.allCompatible takes ts' = true
  | [], _ => ⟨[], [], rfl, rfl, rfl, rfl⟩
  | m :: ms, h => by
    obtain ⟨-, ⟨t, t', ht, ht', hc, hc'⟩, hms⟩ := h
    obtain ⟨ts, ts', hts, hts', hcs, hcs'⟩ := fields_taken hms
    refine ⟨t :: ts, t' :: ts', ?_, ?_, ?_, ?_⟩
    · rw [Ty.reprTypes, ht, Option.bind_some, hts, Option.map_some]
    · rw [Ty.reprTypes, ht', Option.bind_some, hts', Option.map_some]
    · rw [ReprType.allCompatible, hc, hcs]
      rfl
    · rw [ReprType.allCompatible, hc', hcs']
      rfl

theorem extractvalue_self {t : ReprType} {v : Value} (hv : v.type = t) (ht : t.compatible takes = true) : extractvalue takes t v = some v := by
  rw [extractvalue, if_pos ⟨hv, ht⟩]

theorem insertvalue_self {t : ReprType} {v : Value} (hv : v.type = t) (ht : t.compatible takes = true) : insertvalue takes t v = some v := by
  rw [insertvalue, if_pos ⟨hv, ht⟩]

theorem convertMembers_struct {ms : List Ty} {ts : List ReprType} (hts : Ty.reprTypes target ms = some ts)
    (hc : ReprType.allCompatible takes ts = true) (fields : List Value) :
    Ty.convertMembers takes there source target (.struct ms) (.struct fields) =
      (Ty.convertFields takes there source target ms fields).map .struct := by
  have hout : (Ty.struct ms).reprType target = some (.struct ts) := by
    rw [Ty.reprType, hts, Option.bind_some, getLiteral_of_compatible hc]
  have htaken : (ReprType.struct ts).compatible takes = true := hc
  rw [Ty.convertMembers, hout, Option.bind_eq_bind, Option.bind_some, if_pos htaken]
  cases Ty.convertFields takes there source target ms fields <;> rfl

/-- The scalars that are stored go there and back. -/
def Stores (stored : Kind → Prop) (source target : Kind → ScalarType) (there back : Kind → Value → Option Value) : Prop :=
  ∀ k, stored k → Lossless (some (.scalar (source k))) (some (.scalar (target k))) (there k) (back k)

mutual

theorem convertMembers_ok (hleaf : Stores stored source target there back) : ∀ {ty : Ty}, ty.Storable stored takes source target →
    Lossless (ty.reprType source) (ty.reprType target) (ty.convertMembers takes there source target)
      (ty.convertMembers takes back target source)
  | .scalar k, h => hleaf k h
  | .struct ms, h => by
    obtain ⟨ts, ts', hts, hts', hc, hc'⟩ := fields_taken h
    refine ⟨.struct ts, .struct ts', ?_, ?_, fun v hv => ?_⟩
    · rw [Ty.reprType, hts, Option.bind_some, getLiteral_of_compatible hc]
    · rw [Ty.reprType, hts', Option.bind_some, getLiteral_of_compatible hc']
    · obtain ⟨fields, rfl, hfields⟩ := Value.of_struct hv
      obtain ⟨ss, hss, htypes, hback⟩ := convertFields_ok hleaf h hts hts' fields hfields
      refine ⟨.struct ss, ?_, congrArg ReprType.struct htypes, ?_⟩
      · rw [convertMembers_struct hts' hc', hss]
        rfl
      · rw [convertMembers_struct hts hc, hback]
        rfl
  | .tuple ms, h => by
    obtain ⟨ts, ts', hts, hts', hitems⟩ := convertItems_ok hleaf h
    refine ⟨.tuple ts, .tuple ts', ?_, ?_, fun v hv => ?_⟩
    · rw [Ty.reprType, hts]
      rfl
    · rw [Ty.reprType, hts']
      rfl
    · obtain ⟨items, rfl, htypes⟩ := Value.of_tuple hv
      obtain ⟨ss, hss, htypes', hback⟩ := hitems items htypes
      refine ⟨.tuple ss, ?_, congrArg ReprType.tuple htypes', ?_⟩
      · rw [Ty.convertMembers, hss]
        rfl
      · rw [Ty.convertMembers, hback]
        rfl

theorem convertFields_ok (hleaf : Stores stored source target there back) : ∀ {ms : List Ty},
    Ty.FieldsStorable stored takes source target ms → ∀ {ts ts'}, Ty.reprTypes source ms = some ts → Ty.reprTypes target ms = some ts' → ∀ fields, Value.types fields = ts →
    ∃ ss, Ty.convertFields takes there source target ms fields = some ss ∧ Value.types ss = ts' ∧
      Ty.convertFields takes back target source ms ss = some fields
  | [], _, _, _, hts, hts', fields, hf => by
    obtain rfl := Option.some.inj hts
    obtain rfl := Option.some.inj hts'
    obtain rfl := Value.of_types_nil hf
    exact ⟨[], rfl, rfl, rfl⟩
  | m :: ms, h, _, _, hts, hts', fields, hf => by
    obtain ⟨hm, ⟨t, t', ht, ht', hc, hc'⟩, hms⟩ := h
    obtain ⟨us, us', hus, hus', -, -⟩ := fields_taken hms
    rw [Ty.reprTypes, ht, Option.bind_some, hus, Option.map_some] at hts
    rw [Ty.reprTypes, ht', Option.bind_some, hus', Option.map_some] at hts'
    obtain rfl := Option.some.inj hts
    obtain rfl := Option.some.inj hts'
    obtain ⟨v, vs, rfl, hv, hvs⟩ := Value.of_types_cons hf
    obtain ⟨t₁, t₂, h₁, h₂, hmember⟩ := convertMembers_ok hleaf hm
    obtain rfl := Option.some.inj (h₁.symm.trans ht)
    obtain rfl := Option.some.inj (h₂.symm.trans ht')
    obtain ⟨s, hs, hstype, hsback⟩ := hmember v hv
    obtain ⟨ss, hss, htypes, hback⟩ := convertFields_ok hleaf hms hus hus' vs hvs
    refine ⟨s :: ss, ?_, by rw [Value.types, hstype, htypes], ?_⟩
    · simp only [Ty.convertFields, ht, ht', extractvalue_self hv hc, hs, insertvalue_self hstype hc', hss, Option.bind_eq_bind, Option.bind_some]
      rfl
    · simp only [Ty.convertFields, ht, ht', extractvalue_self hstype hc', hsback, insertvalue_self hv hc, hback, Option.bind_eq_bind,
        Option.bind_some]
      rfl

theorem convertItems_ok (hleaf : Stores stored source target there back) : ∀ {ms : List Ty}, Ty.ItemsStorable stored takes source target ms →
    ∃ ts ts', Ty.reprTypes source ms = some ts ∧ Ty.reprTypes target ms = some ts' ∧ ∀ items, Value.types items = ts →
      ∃ ss, Ty.convertItems takes there source target ms items = some ss ∧ Value.types ss = ts' ∧
        Ty.convertItems takes back target source ms ss = some items
  | [], _ => by
    refine ⟨[], [], rfl, rfl, fun items hi => ?_⟩
    obtain rfl := Value.of_types_nil hi
    exact ⟨[], rfl, rfl, rfl⟩
  | m :: ms, h => by
    obtain ⟨t, t', ht, ht', hmember⟩ := convertMembers_ok hleaf h.1
    obtain ⟨ts, ts', hts, hts', hitems⟩ := convertItems_ok hleaf h.2
    refine ⟨t :: ts, t' :: ts', ?_, ?_, fun items hi => ?_⟩
    · rw [Ty.reprTypes, ht, Option.bind_some, hts, Option.map_some]
    · rw [Ty.reprTypes, ht', Option.bind_some, hts', Option.map_some]
    · obtain ⟨v, vs, rfl, hv, hvs⟩ := Value.of_types_cons hi
      obtain ⟨s, hs, hstype, hsback⟩ := hmember v hv
      obtain ⟨ss, hss, htypes, hback⟩ := hitems vs hvs
      refine ⟨s :: ss, ?_, by rw [Value.types, hstype, htypes], ?_⟩
      · simp only [Ty.convertItems, hs, hss, Option.bind_eq_bind, Option.bind_some]
        rfl
      · simp only [Ty.convertItems, hsback, hback, Option.bind_eq_bind, Option.bind_some]
        rfl

end

/-! ## Necessity -/

theorem reprTypes_cons {f : Kind → ScalarType} {m : Ty} {ms : List Ty} {ts : List ReprType} (h : Ty.reprTypes f (m :: ms) = some ts) :
    ∃ t us, m.reprType f = some t ∧ Ty.reprTypes f ms = some us ∧ ts = t :: us := by
  obtain ⟨t, ht, h⟩ := Option.bind_eq_some_iff.mp h
  obtain ⟨us, hus, rfl⟩ := Option.map_eq_some_iff.mp h
  exact ⟨t, us, ht, hus, rfl⟩

theorem convertMembers_struct_some {ms : List Ty} {fields : List Value} {s : Value}
    (h : Ty.convertMembers takes there source target (.struct ms) (.struct fields) = some s) :
    ∃ ss, Ty.convertFields takes there source target ms fields = some ss ∧ s = .struct ss := by
  obtain ⟨out, -, h⟩ := Option.bind_eq_some_iff.mp h
  split at h
  · obtain ⟨ss, hss, h⟩ := Option.bind_eq_some_iff.mp h
    exact ⟨ss, hss, (Option.some.inj h).symm⟩
  · cases h

theorem extractvalue_some {t : ReprType} {v w : Value} (h : extractvalue takes t v = some w) : w = v ∧ v.type = t ∧ t.compatible takes = true := by
  unfold extractvalue at h
  split at h
  · next hv => exact ⟨(Option.some.inj h).symm, hv⟩
  · cases h

theorem insertvalue_some {t : ReprType} {v w : Value} (h : insertvalue takes t v = some w) : w = v ∧ v.type = t ∧ t.compatible takes = true := by
  unfold insertvalue at h
  split at h
  · next hv => exact ⟨(Option.some.inj h).symm, hv⟩
  · cases h

theorem convertFields_cons_some {m : Ty} {ms : List Ty} {v : Value} {vs ss : List Value}
    (h : Ty.convertFields takes there source target (m :: ms) (v :: vs) = some ss) :
    ∃ t t' s us, m.reprType source = some t ∧ m.reprType target = some t' ∧ t.compatible takes = true ∧ t'.compatible takes = true ∧
      m.convertMembers takes there source target v = some s ∧ s.type = t' ∧
      Ty.convertFields takes there source target ms vs = some us ∧ ss = s :: us := by
  rw [Ty.convertFields] at h
  obtain ⟨t, ht, h₁⟩ := Option.bind_eq_some_iff.mp h
  obtain ⟨t', ht', h₂⟩ := Option.bind_eq_some_iff.mp h₁
  obtain ⟨field, hfield, h₃⟩ := Option.bind_eq_some_iff.mp h₂
  obtain ⟨s, hs, h₄⟩ := Option.bind_eq_some_iff.mp h₃
  obtain ⟨s', hs', h₅⟩ := Option.bind_eq_some_iff.mp h₄
  obtain ⟨us, hus, h₆⟩ := Option.bind_eq_some_iff.mp h₅
  obtain ⟨hv, -, hc⟩ := extractvalue_some hfield
  obtain ⟨hsame, htype, hc'⟩ := insertvalue_some hs'
  rw [hv] at hs
  rw [hsame] at h₆
  exact ⟨t, t', s, us, ht, ht', hc, hc', hs, htype, hus, (Option.some.inj h₆).symm⟩

theorem convertItems_cons_some {m : Ty} {ms : List Ty} {v : Value} {vs ss : List Value}
    (h : Ty.convertItems takes there source target (m :: ms) (v :: vs) = some ss) :
    ∃ s us, m.convertMembers takes there source target v = some s ∧ Ty.convertItems takes there source target ms vs = some us ∧ ss = s :: us := by
  rw [Ty.convertItems] at h
  obtain ⟨s, hs, h⟩ := Option.bind_eq_some_iff.mp h
  obtain ⟨us, hus, h⟩ := Option.bind_eq_some_iff.mp h
  exact ⟨s, us, hs, hus, (Option.some.inj h).symm⟩

/-- Lists of values go there and back, as the fields of a struct or the items of a tuple. -/
def ListLossless (source target : Kind → ScalarType) (ms : List Ty) (there back : List Value → Option (List Value)) : Prop :=
  ∃ ts ts', Ty.reprTypes source ms = some ts ∧ Ty.reprTypes target ms = some ts' ∧
    ∀ vs, Value.types vs = ts → ∃ ss, there vs = some ss ∧ Value.types ss = ts' ∧ back ss = some vs

mutual

/-- Where every value of the type comes back, so does every one of a scalar in it: the values around it may be zero. -/
theorem storable_of_lossless
    (hleaf : ∀ k, Lossless (some (.scalar (source k))) (some (.scalar (target k))) (there k) (back k) → stored k) : ∀ {ty : Ty},
    Lossless (ty.reprType source) (ty.reprType target) (ty.convertMembers takes there source target)
      (ty.convertMembers takes back target source) → ty.Storable stored takes source target
  | .scalar k, h => hleaf k h
  | .struct ms, ⟨t, t', ht, ht', h⟩ => by
    obtain ⟨ts, hts, hlit⟩ := Option.bind_eq_some_iff.mp ht
    obtain ⟨ts', hts', hlit'⟩ := Option.bind_eq_some_iff.mp ht'
    obtain rfl := getLiteral_eq hlit
    obtain rfl := getLiteral_eq hlit'
    refine fieldsStorable_of_lossless hleaf ⟨ts, ts', hts, hts', fun vs hvs => ?_⟩
    obtain ⟨s, hs, htype, hback⟩ := h (.struct vs) (congrArg ReprType.struct hvs)
    obtain ⟨ss, hss, rfl⟩ := convertMembers_struct_some hs
    obtain ⟨us, hus, hus'⟩ := convertMembers_struct_some hback
    exact ⟨ss, hss, ReprType.struct.inj htype, hus.trans (congrArg some (Value.struct.inj hus').symm)⟩
  | .tuple ms, ⟨t, t', ht, ht', h⟩ => by
    obtain ⟨ts, hts, rfl⟩ := Option.map_eq_some_iff.mp ht
    obtain ⟨ts', hts', rfl⟩ := Option.map_eq_some_iff.mp ht'
    refine itemsStorable_of_lossless hleaf ⟨ts, ts', hts, hts', fun vs hvs => ?_⟩
    obtain ⟨s, hs, htype, hback⟩ := h (.tuple vs) (congrArg ReprType.tuple hvs)
    obtain ⟨ss, hss, rfl⟩ := Option.map_eq_some_iff.mp hs
    obtain ⟨us, hus, hus'⟩ := Option.map_eq_some_iff.mp hback
    exact ⟨ss, hss, ReprType.tuple.inj htype, hus.trans (congrArg some (Value.tuple.inj hus'))⟩

theorem fieldsStorable_of_lossless
    (hleaf : ∀ k, Lossless (some (.scalar (source k))) (some (.scalar (target k))) (there k) (back k) → stored k) : ∀ {ms : List Ty},
    ListLossless source target ms (Ty.convertFields takes there source target ms) (Ty.convertFields takes back target source ms) →
    Ty.FieldsStorable stored takes source target ms
  | [], _ => trivial
  | m :: ms, ⟨ts, ts', hts, hts', h⟩ => by
    obtain ⟨t, us, ht, hus, rfl⟩ := reprTypes_cons hts
    obtain ⟨t', us', ht', hus', rfl⟩ := reprTypes_cons hts'
    have hfield : ∀ v vs, v.type = t → Value.types vs = us → ∃ s ss, t.compatible takes = true ∧ t'.compatible takes = true ∧
        m.convertMembers takes there source target v = some s ∧ s.type = t' ∧ m.convertMembers takes back target source s = some v ∧
        Ty.convertFields takes there source target ms vs = some ss ∧ Value.types ss = us' ∧
        Ty.convertFields takes back target source ms ss = some vs := by
      intro v vs hv hvs
      obtain ⟨ss, hss, htypes, hback⟩ := h (v :: vs) (by rw [Value.types, hv, hvs])
      obtain ⟨t₁, t₂, s, rest, ht₁, ht₂, hc, hc', hs, hstype, hrest, rfl⟩ := convertFields_cons_some hss
      obtain ⟨-, -, w, vs', -, -, -, -, hw, -, hvs', heq⟩ := convertFields_cons_some hback
      obtain ⟨rfl, rfl⟩ := List.cons.inj heq
      obtain rfl := Option.some.inj (ht₁.symm.trans ht)
      obtain rfl := Option.some.inj (ht₂.symm.trans ht')
      exact ⟨s, rest, hc, hc', hs, hstype, hw, hrest, (List.cons.inj htypes).2, hvs'⟩
    refine ⟨storable_of_lossless hleaf ⟨t, t', ht, ht', fun v hv => ?_⟩, ?_, fieldsStorable_of_lossless hleaf ⟨us, us', hus, hus', fun vs hvs => ?_⟩⟩
    · obtain ⟨s, -, -, -, hs, hstype, hback, -⟩ := hfield v (Value.zeros us) hv (types_zeros us)
      exact ⟨s, hs, hstype, hback⟩
    · obtain ⟨-, -, hc, hc', -⟩ := hfield (Value.zero t) (Value.zeros us) (type_zero t) (types_zeros us)
      exact ⟨t, t', ht, ht', hc, hc'⟩
    · obtain ⟨-, ss, -, -, -, -, -, hss, htypes, hback⟩ := hfield (Value.zero t) vs (type_zero t) hvs
      exact ⟨ss, hss, htypes, hback⟩

theorem itemsStorable_of_lossless
    (hleaf : ∀ k, Lossless (some (.scalar (source k))) (some (.scalar (target k))) (there k) (back k) → stored k) : ∀ {ms : List Ty},
    ListLossless source target ms (Ty.convertItems takes there source target ms) (Ty.convertItems takes back target source ms) →
    Ty.ItemsStorable stored takes source target ms
  | [], _ => trivial
  | m :: ms, ⟨ts, ts', hts, hts', h⟩ => by
    obtain ⟨t, us, ht, hus, rfl⟩ := reprTypes_cons hts
    obtain ⟨t', us', ht', hus', rfl⟩ := reprTypes_cons hts'
    have hitem : ∀ v vs, v.type = t → Value.types vs = us → ∃ s ss, m.convertMembers takes there source target v = some s ∧ s.type = t' ∧
        m.convertMembers takes back target source s = some v ∧ Ty.convertItems takes there source target ms vs = some ss ∧
        Value.types ss = us' ∧ Ty.convertItems takes back target source ms ss = some vs := by
      intro v vs hv hvs
      obtain ⟨ss, hss, htypes, hback⟩ := h (v :: vs) (by rw [Value.types, hv, hvs])
      obtain ⟨s, rest, hs, hrest, rfl⟩ := convertItems_cons_some hss
      obtain ⟨w, vs', hw, hvs', heq⟩ := convertItems_cons_some hback
      obtain ⟨rfl, rfl⟩ := List.cons.inj heq
      exact ⟨s, rest, hs, (List.cons.inj htypes).1, hw, hrest, (List.cons.inj htypes).2, hvs'⟩
    refine ⟨storable_of_lossless hleaf ⟨t, t', ht, ht', fun v hv => ?_⟩, itemsStorable_of_lossless hleaf ⟨us, us', hus, hus', fun vs hvs => ?_⟩⟩
    · obtain ⟨s, -, hs, hstype, hback, -⟩ := hitem v (Value.zeros us) hv (types_zeros us)
      exact ⟨s, hs, hstype, hback⟩
    · obtain ⟨-, ss, -, -, -, hss, htypes, hback⟩ := hitem (Value.zero t) vs (type_zero t) hvs
      exact ⟨ss, hss, htypes, hback⟩

end

end

/-! ## Scalars -/

section
variable {ops : Arith}

theorem mlirType_of_scalar {v : Value} {t : ScalarType} (h : v.type = .scalar t) : v.mlirType = some (.scalar t) := by
  unfold Value.mlirType
  rw [h]
  rfl

theorem convert_self {v : Value} {t : ReprType} (h : v.mlirType = some t) : convert ops v t = some v := by
  unfold convert
  exact if_pos h

theorem valueToStorage_scalar {k : Kind} {v : Value} (hv : v.type = .scalar k.valueType) :
    valueToStorage ops (.scalar k) v = if k.valueType = k.dataType then some v else scalarToStorage ops k v := by
  have hm := mlirType_of_scalar hv
  simp only [valueToStorage, Ty.getDataType, Ty.getValueType, Ty.reprType, Option.bind_eq_bind, Option.bind_some, hm, Option.some.injEq,
    ReprType.scalar.injEq, if_true]
  split
  · next h => exact (if_pos h.2).symm
  · next h =>
    have hne : k.valueType ≠ k.dataType := fun heq => h ⟨heq, heq⟩
    rw [if_neg hne, if_neg hne]

theorem storageToValue_scalar {k : Kind} {v : Value} (hv : v.type = .scalar k.dataType) :
    storageToValue ops (.scalar k) v = if k.valueType = k.dataType then some v else storageToScalar ops k v := by
  have hm := mlirType_of_scalar hv
  simp only [storageToValue, Ty.getDataType, Ty.getValueType, Ty.reprType, Option.bind_eq_bind, Option.bind_some, hm, Option.some.injEq,
    ReprType.scalar.injEq, if_true]
  split
  · next h => exact (if_pos h.2).symm
  · next h =>
    have hne : k.valueType ≠ k.dataType := fun heq => h ⟨heq.symm, heq⟩
    rw [if_neg hne, if_neg hne]

/-- The kinds that are stored by their bits: not tf32, whose bit width is wrong, and
not the formats of the CUDA headers, which are taken for numbers. -/
def Kind.Stored (k : Kind) : Prop := k ≠ .tf32 ∧ ∀ f, k ≠ .fp8 f

theorem special_width (f : SpecialFloat) : (FloatType.special f).width = f.bitwidth := by cases f <;> rfl

theorem bitwidth_le (f : SpecialFloat) : f.bitwidth ≤ 8 := by cases f <;> decide

theorem bitcast_scalar {t out : ScalarType} (h : t.width = out.width) (bits : BitVec t.width) :
    bitcast out (.scalar t bits) = some (.scalar out (bits.setWidth out.width)) := by rw [bitcast, if_pos h]

theorem lossless_same {k : Kind} (h : k.valueType = k.dataType) : Lossless (some (.scalar k.valueType)) (some (.scalar k.dataType))
    (valueToStorage ops (.scalar k)) (storageToValue ops (.scalar k)) := by
  refine ⟨_, _, rfl, rfl, fun v hv => ⟨v, ?_, hv.trans (by rw [h]), ?_⟩⟩
  · rw [valueToStorage_scalar hv, if_pos h]
  · rw [storageToValue_scalar (hv.trans (by rw [h])), if_pos h]

theorem setWidth_of_wider {w l m : Nat} (x : BitVec w) (h : w ≤ l) : (x.setWidth l).setWidth m = x.setWidth m := by
  apply BitVec.eq_of_toNat_eq
  have hlt : x.toNat < 2 ^ l := lt_of_lt_of_le x.isLt (Nat.pow_le_pow_right (by decide) h)
  rw [BitVec.toNat_setWidth, BitVec.toNat_setWidth, BitVec.toNat_setWidth, Nat.mod_eq_of_lt hlt]

theorem extui_int {w width : Nat} (h : w < width) (bits : BitVec w) :
    extui width (.scalar (.int w) bits) = some (.scalar (.int width) (BitVec.setWidth width bits)) := by
  unfold extui
  exact if_pos h

theorem trunci_int {w width : Nat} (h : width < w) (bits : BitVec w) :
    trunci width (.scalar (.int w) bits) = some (.scalar (.int width) (BitVec.setWidth width bits)) := by
  unfold trunci
  exact if_pos h

theorem lossless_bits {k : Kind} {width : Nat} (hdata : k.dataType = .int width) (hne : k.valueType ≠ .int width)
    (hbool : k ≠ .boolean) (hfloat : k.isFloatStorage = true) (hwidth : k.valueType.width = k.bitwidth) (hle : k.bitwidth ≤ width) :
    Lossless (some (.scalar k.valueType)) (some (.scalar k.dataType)) (valueToStorage ops (.scalar k)) (storageToValue ops (.scalar k)) := by
  refine ⟨_, _, rfl, rfl, fun v hv => ?_⟩
  obtain ⟨bits, rfl⟩ := Value.of_scalar hv
  have hdiff : k.valueType ≠ k.dataType := by rwa [hdata]
  have hcast : bitcast (.int k.bitwidth) (.scalar k.valueType bits) = some (.scalar (.int k.bitwidth) (BitVec.setWidth k.bitwidth bits)) :=
    bitcast_scalar hwidth bits
  have hback : ∀ stored : BitVec k.bitwidth, bitcast k.valueType (.scalar (.int k.bitwidth) stored) =
      some (.scalar k.valueType (stored.setWidth k.valueType.width)) := fun stored => bitcast_scalar (t := .int k.bitwidth) hwidth.symm stored
  have hsame : ∀ {l : Nat}, k.bitwidth ≤ l → ((bits.setWidth l).setWidth k.bitwidth).setWidth k.valueType.width = bits := by
    intro l hl
    rw [setWidth_of_wider bits (hwidth ▸ hl), setWidth_of_wider bits (le_of_eq hwidth), BitVec.setWidth_eq]
  have hthere : valueToStorage ops (.scalar k) (.scalar k.valueType bits) = some (.scalar (.int width) (BitVec.setWidth width bits)) := by
    rw [valueToStorage_scalar hv, if_neg hdiff, scalarToStorage, hdata]
    simp only [if_neg hbool, if_pos hfloat, hcast, Option.bind_some]
    split
    · next heq => rw [heq]
    · next hne =>
      have hlt : k.bitwidth < width := lt_of_le_of_ne hle hne
      rw [if_pos hlt, extui_int hlt, setWidth_of_wider bits (le_of_eq hwidth)]
  refine ⟨_, hthere, by rw [hdata]; rfl, ?_⟩
  have hs : Value.type (.scalar (.int width) (BitVec.setWidth width bits)) = .scalar k.dataType := by
    rw [hdata]
    rfl
  rw [storageToValue_scalar hs, if_neg hdiff, storageToScalar, hdata]
  simp only [if_neg hbool, if_pos hfloat]
  by_cases hlt : k.bitwidth < width
  · rw [if_pos hlt, trunci_int hlt, Option.bind_some, hback, hsame hle]
  · have heq : width = k.bitwidth := by omega
    subst heq
    rw [if_neg hlt, if_neg hlt, Option.bind_some, hback, setWidth_of_wider bits (le_of_eq hwidth), BitVec.setWidth_eq]

theorem cmpNe_int {w : Nat} (bits : BitVec w) : cmpNe (.scalar (.int w) bits) = some (isTrue (bits != 0)) := rfl

theorem boolean_back {byte : BitVec 8} : storageToValue ops (.scalar .boolean) (.scalar (.int 8) byte) = some (isTrue (byte != 0)) := by
  rw [storageToValue_scalar rfl]
  rfl

theorem lossless_boolean : Lossless (some (.scalar Kind.boolean.valueType)) (some (.scalar Kind.boolean.dataType))
    (valueToStorage ops (.scalar .boolean)) (storageToValue ops (.scalar .boolean)) := by
  refine ⟨_, _, rfl, rfl, fun v hv => ?_⟩
  obtain ⟨bits, rfl⟩ := Value.of_scalar hv
  have hthere : valueToStorage ops (.scalar .boolean) (.scalar (.int 1) bits) = some (.scalar (.int 8) (BitVec.setWidth 8 bits)) := by
    rw [valueToStorage_scalar rfl]
    rfl
  refine ⟨_, hthere, rfl, boolean_back.trans ?_⟩
  have hbit : ∀ b : BitVec 1, BitVec.ofBool (b.setWidth 8 != 0) = b := by decide
  exact congrArg (fun b => some (Value.scalar (.int 1) b)) (hbit bits)

theorem stores : Stores Kind.Stored Kind.valueType Kind.dataType (fun k => valueToStorage ops (.scalar k)) (fun k => storageToValue ops (.scalar k)) := by
  rintro k ⟨htf32, hfp8⟩
  cases k with
  | boolean => exact lossless_boolean
  | integer w => exact lossless_same rfl
  | float16 => exact lossless_bits rfl (by decide) (by decide) rfl rfl (by decide)
  | float32 => exact lossless_same rfl
  | float64 => exact lossless_same rfl
  | bf16 => exact lossless_bits rfl (by decide) (by decide) rfl rfl (by decide)
  | special f => exact lossless_bits rfl (by simp [Kind.valueType]) (by simp) rfl (special_width f) (bitwidth_le f)
  | tf32 => exact absurd rfl htf32
  | fp8 f => exact absurd rfl (hfp8 f)

def Fp8.half : Fp8 → Nat
  | e5m2 => 0x38
  | e4m3 => 0x30
  | e8m0 => 0x7e

def Fp8.quarter : Fp8 → Nat
  | e5m2 => 0x34
  | e4m3 => 0x28
  | e8m0 => 0x7d

theorem number_half (f : Fp8) : f.mlir.number f.half = some (1 / 2) := by
  cases f <;> norm_num [Fp8.mlir, Fp8.half, FloatType.number]

theorem number_quarter (f : Fp8) : f.mlir.number f.quarter = some (1 / 4) := by
  cases f <;> norm_num [Fp8.mlir, Fp8.quarter, FloatType.number]

theorem tf32_refused (bits : BitVec FloatType.tf32.width) : valueToStorage ops (.scalar .tf32) (.scalar (.float .tf32) bits) = none := by
  rw [valueToStorage_scalar rfl]
  rfl

theorem fp8_small {f : Fp8} {b : BitVec f.mlir.width} {q : Rat} (hb : f.mlir.number b.toNat = some q) (hq : |q| < 1) :
    valueToStorage ops (.scalar (.fp8 f)) (.scalar (.float f.mlir) b) = some (.scalar (.int 8) (0 : BitVec 8)) := by
  rw [valueToStorage_scalar rfl, if_neg (by simp [Kind.valueType, Kind.dataType])]
  have hzero : ops.fptosi f.mlir 8 b = 0 := ops.fptosi_small _ _ _ _ hb hq
  have hconvert : scalarToStorage ops (.fp8 f) (.scalar (.float f.mlir) b) = some (.scalar (.int 8) (ops.fptosi f.mlir 8 b)) := rfl
  rw [hconvert, hzero]

theorem stored_of_lossless (k : Kind) (h : Lossless (some (.scalar k.valueType)) (some (.scalar k.dataType))
    (valueToStorage ops (.scalar k)) (storageToValue ops (.scalar k))) : k.Stored := by
  obtain ⟨t, t', ht, -, h⟩ := h
  obtain rfl := Option.some.inj ht
  refine ⟨?_, ?_⟩
  · rintro rfl
    obtain ⟨s, hs, -⟩ := h (.scalar (.float .tf32) 0) rfl
    cases hs.symm.trans (@tf32_refused ops 0)
  · rintro f rfl
    have hpattern : ∀ n < 256, (BitVec.ofNat f.mlir.width n).toNat = n := by
      intro n hn
      rw [BitVec.toNat_ofNat, show f.mlir.width = 8 by cases f <;> rfl]
      exact Nat.mod_eq_of_lt hn
    have hback : ∀ n < 256, ∀ q, f.mlir.number n = some q → |q| < 1 →
        storageToValue ops (.scalar (.fp8 f)) (.scalar (.int 8) (0 : BitVec 8)) = some (.scalar (.float f.mlir) (BitVec.ofNat _ n)) := by
      intro n hn q hnum hq
      obtain ⟨s, hs, -, hback⟩ := h (.scalar (.float f.mlir) (BitVec.ofNat _ n)) rfl
      have hnumber : f.mlir.number (BitVec.ofNat f.mlir.width n).toNat = some q := by rw [hpattern n hn, hnum]
      obtain rfl := Option.some.inj (hs.symm.trans (fp8_small hnumber hq))
      exact hback
    have hhalf := hback f.half (by cases f <;> decide) _ (number_half f) (by norm_num [abs_lt])
    have hquarter := hback f.quarter (by cases f <;> decide) _ (number_quarter f) (by norm_num [abs_lt])
    have hsame := Option.some.inj (hhalf.symm.trans hquarter)
    injection hsame with _ hbits
    have hnat := congrArg BitVec.toNat hbits
    have hne : f.half = f.quarter :=
      (hpattern f.half (by cases f <;> decide)).symm.trans (hnat.trans (hpattern f.quarter (by cases f <;> decide)))
    cases f <;> cases hne

/-! ## Models -/

theorem data_lossless_iff (takes : FloatType → Bool) (ty : Ty) :
    Lossless ty.getValueType ty.getDataType (asData ops takes ty) (fromData ops takes ty) ↔
      ty.Storable Kind.Stored takes Kind.valueType Kind.dataType :=
  ⟨storable_of_lossless stored_of_lossless, convertMembers_ok stores⟩

mutual

theorem argument_ok {takes : FloatType → Bool} : ∀ {ty : Ty}, ty.Storable Kind.Stored takes Kind.valueType Kind.dataType →
    Lossless ty.getValueType ty.getArgumentType (asArgument ops takes ty) (fromArgument ops takes ty)
  | .scalar k, _ => by
    refine ⟨_, _, rfl, rfl, fun v hv => ⟨v, ?_, hv, ?_⟩⟩
    · exact convert_self (mlirType_of_scalar hv)
    · exact convert_self (mlirType_of_scalar hv)
  | .struct ms, h => convertMembers_ok stores h
  | .tuple ms, h => by
    obtain ⟨ts, ts', hts, hts', hitems⟩ := arguments_ok h
    refine ⟨.tuple ts, .tuple ts', ?_, ?_, fun v hv => ?_⟩
    · rw [Ty.getValueType, Ty.reprType, hts]
      rfl
    · rw [Ty.getArgumentType, hts']
      rfl
    · obtain ⟨items, rfl, htypes⟩ := Value.of_tuple hv
      obtain ⟨ss, hss, htypes', hback⟩ := hitems items htypes
      refine ⟨.tuple ss, ?_, congrArg ReprType.tuple htypes', ?_⟩
      · rw [asArgument, Ty.convertArgument, hss]
        rfl
      · rw [fromArgument, Ty.convertArgument, hback]
        rfl

theorem arguments_ok {takes : FloatType → Bool} : ∀ {ms : List Ty}, Ty.ItemsStorable Kind.Stored takes Kind.valueType Kind.dataType ms →
    ∃ ts ts', Ty.reprTypes Kind.valueType ms = some ts ∧ Ty.getArgumentTypes ms = some ts' ∧ ∀ items, Value.types items = ts →
      ∃ ss, Ty.convertArguments ops (asData ops takes) ms items = some ss ∧ Value.types ss = ts' ∧
        Ty.convertArguments ops (fromData ops takes) ms ss = some items
  | [], _ => by
    refine ⟨[], [], rfl, rfl, fun items hi => ?_⟩
    obtain rfl := Value.of_types_nil hi
    exact ⟨[], rfl, rfl, rfl⟩
  | m :: ms, h => by
    obtain ⟨t, t', ht, ht', hmember⟩ := argument_ok h.1
    obtain ⟨ts, ts', hts, hts', hitems⟩ := arguments_ok h.2
    refine ⟨t :: ts, t' :: ts', ?_, ?_, fun items hi => ?_⟩
    · rw [Ty.reprTypes, show m.reprType Kind.valueType = some t from ht, Option.bind_some, hts, Option.map_some]
    · rw [Ty.getArgumentTypes, ht', Option.bind_some, hts', Option.map_some]
    · obtain ⟨v, vs, rfl, hv, hvs⟩ := Value.of_types_cons hi
      obtain ⟨s, hs, hstype, hsback⟩ := hmember v hv
      obtain ⟨ss, hss, htypes, hback⟩ := hitems vs hvs
      refine ⟨s :: ss, ?_, by rw [Value.types, hstype, htypes], ?_⟩
      · rw [Ty.convertArguments, show m.convertArgument ops (asData ops takes) v = some s from hs, hss]
        rfl
      · rw [Ty.convertArguments, show m.convertArgument ops (fromData ops takes) s = some v from hsback, hback]
        rfl

end

/-! ## The two functions -/

/-- The types that `value_to_storage` and `storage_to_value` take: stored scalars, and
structs whose values are stored in their own type. -/
def Ty.Direct : Ty → Prop
  | scalar k => k.Stored
  | struct ms => ∃ t, (struct ms).getValueType = some t ∧ (struct ms).getDataType = some t
  | tuple _ => False

theorem mlirType_struct (fields : List Value) : (Value.struct fields).mlirType = some (.struct (Value.types fields)) := rfl

theorem mlirType_tuple (items : List Value) : (Value.tuple items).mlirType = none := rfl

theorem convert_struct {fields : List Value} {ts : List ReprType} (h : Value.types fields ≠ ts) :
    convert ops (.struct fields) (.struct ts) = none := by
  have hne : (Value.struct fields).mlirType ≠ some (.struct ts) := fun heq => h (ReprType.struct.inj (Option.some.inj heq))
  unfold convert
  exact if_neg hne

theorem convert_tuple (items : List Value) (t : ReprType) : convert ops (.tuple items) t = none := by
  have hne : (Value.tuple items).mlirType ≠ some t := nofun
  unfold convert
  exact if_neg hne

theorem valueToStorage_same {ty : Ty} {t : ReprType} {v : Value} (ht : ty.getValueType = some t) (ht' : ty.getDataType = some t)
    (hv : v.mlirType = some t) : valueToStorage ops ty v = some v := by
  simp only [valueToStorage, ht, ht', Option.bind_eq_bind, Option.bind_some]
  exact if_pos ⟨hv, trivial⟩

theorem storageToValue_same {ty : Ty} {t : ReprType} {v : Value} (ht : ty.getValueType = some t) (ht' : ty.getDataType = some t)
    (hv : v.mlirType = some t) : storageToValue ops ty v = some v := by
  simp only [storageToValue, ht, ht', Option.bind_eq_bind, Option.bind_some]
  exact if_pos ⟨hv, trivial⟩

theorem valueToStorage_struct {ms : List Ty} {ts ts' : List ReprType} {fields : List Value}
    (ht : (Ty.struct ms).getValueType = some (.struct ts)) (ht' : (Ty.struct ms).getDataType = some (.struct ts'))
    (hv : Value.types fields = ts) (hne : ts ≠ ts') : valueToStorage ops (.struct ms) (.struct fields) = none := by
  have hdiff : ReprType.struct ts ≠ .struct ts' := fun heq => hne (ReprType.struct.inj heq)
  have hm : (Value.struct fields).mlirType = some (.struct ts) := hv ▸ mlirType_struct fields
  simp only [valueToStorage, ht, ht', Option.bind_eq_bind, Option.bind_some]
  rw [if_neg fun h => hdiff h.2, if_pos hm, if_neg hdiff]
  exact convert_struct (hv ▸ hne)

theorem valueToStorage_tuple {ms : List Ty} {t t' : ReprType} (ht : (Ty.tuple ms).getValueType = some t)
    (ht' : (Ty.tuple ms).getDataType = some t') (items : List Value) : valueToStorage ops (.tuple ms) (.tuple items) = none := by
  simp only [valueToStorage, ht, ht', Option.bind_eq_bind, Option.bind_some, mlirType_tuple, convert_tuple]
  rfl

theorem functions_lossless_iff (ty : Ty) :
    Lossless ty.getValueType ty.getDataType (valueToStorage ops ty) (storageToValue ops ty) ↔ ty.Direct := by
  cases ty with
  | scalar k => exact ⟨stored_of_lossless k, stores k⟩
  | struct ms =>
    constructor
    · rintro ⟨t, t', ht, ht', h⟩
      by_cases heq : t = t'
      · exact ⟨t, ht, heq ▸ ht'⟩
      · obtain ⟨ts, -, hlit⟩ := Option.bind_eq_some_iff.mp ht
        obtain ⟨ts', -, hlit'⟩ := Option.bind_eq_some_iff.mp ht'
        obtain rfl := getLiteral_eq hlit
        obtain rfl := getLiteral_eq hlit'
        obtain ⟨s, hs, -⟩ := h (.struct (Value.zeros ts)) (congrArg ReprType.struct (types_zeros ts))
        cases hs.symm.trans (valueToStorage_struct ht ht' (types_zeros ts) fun hts => heq (congrArg ReprType.struct hts))
    · rintro ⟨t, ht, ht'⟩
      obtain ⟨ts, -, hlit⟩ := Option.bind_eq_some_iff.mp ht
      obtain rfl := getLiteral_eq hlit
      refine ⟨_, _, ht, ht', fun v hv => ?_⟩
      obtain ⟨fields, rfl, hfields⟩ := Value.of_struct hv
      have hm : (Value.struct fields).mlirType = some (.struct ts) := hfields ▸ mlirType_struct fields
      exact ⟨_, valueToStorage_same ht ht' hm, hv, storageToValue_same ht ht' hm⟩
  | tuple ms =>
    refine ⟨?_, False.elim⟩
    rintro ⟨t, t', ht, ht', h⟩
    obtain ⟨ts, -, rfl⟩ := Option.map_eq_some_iff.mp ht
    obtain ⟨s, hs, -⟩ := h (.tuple (Value.zeros ts)) (congrArg ReprType.tuple (types_zeros ts))
    cases hs.symm.trans (valueToStorage_tuple ht ht' _)

end

/-- The conversions of a data model go there and back. -/
def ModelLossless (ops : Arith) (takes : FloatType → Bool) (ty : Ty) : Prop :=
  Lossless ty.getValueType ty.getDataType (asData ops takes ty) (fromData ops takes ty) ∧
    Lossless ty.getValueType ty.getArgumentType (asArgument ops takes ty) (fromArgument ops takes ty) ∧
    Lossless ty.getValueType ty.getReturnType (asReturn ops takes ty) (fromReturn ops takes ty)

/-- Storage conversion is lossless at every depth, where every scalar is stored by its
bits and the `llvm` dialect takes the members of every struct. -/
theorem storage_conversion_lossless_iff (ops : Arith) (takes : FloatType → Bool) (ty : Ty) :
    (Lossless ty.getValueType ty.getDataType (valueToStorage ops ty) (storageToValue ops ty) ↔ ty.Direct) ∧
      (ModelLossless ops takes ty ↔ ty.Storable Kind.Stored takes Kind.valueType Kind.dataType) ∧
      ∀ byte : BitVec 8, byte ≠ 0 → storageToValue ops (.scalar .boolean) (.scalar (.int 8) byte) = some (isTrue true) ∧
        fromData ops takes (.scalar .boolean) (.scalar (.int 8) byte) = some (isTrue true) := by
  refine ⟨functions_lossless_iff ty, ⟨fun h => (data_lossless_iff takes ty).mp h.1, fun h => ?_⟩, fun byte hbyte => ?_⟩
  · exact ⟨(data_lossless_iff takes ty).mpr h, argument_ok h, (data_lossless_iff takes ty).mpr h⟩
  · have htrue : (byte != 0) = true := bne_iff_ne.mpr hbyte
    have hback : storageToValue ops (.scalar .boolean) (.scalar (.int 8) byte) = some (isTrue true) := by rw [boolean_back, htrue]
    exact ⟨hback, hback⟩

/-- An `arith` that is right about the conversion to integers, and about zero. -/
def towardsZero : Arith where
  fptosi f w b := match f.number b.toNat with
    | some q => BitVec.ofInt w (if 0 ≤ q then ⌊q⌋ else ⌈q⌉)
    | none => 0
  isNonzero _ b := b != 0
  sitofp _ _ _ := 0
  uitofp _ _ _ := 0
  castFloat _ _ _ := 0
  fptosi_small f w b q hq hlt := by
    obtain ⟨hneg, hpos⟩ := abs_lt.mp hlt
    have hzero : (if 0 ≤ q then ⌊q⌋ else ⌈q⌉) = 0 := by
      split
      · next h => exact Int.floor_eq_zero_iff.mpr ⟨h, hpos⟩
      · next h => exact Int.ceil_eq_zero_iff.mpr ⟨hneg, (not_le.mp h).le⟩
    simp only [hq, hzero]
    rfl

def llvmFloats : FloatType → Bool
  | .f16 | .bf16 | .f32 | .f64 => true
  | _ => false

/-- A tf32, a half of the CUDA headers, a struct with a tuple in it, and an optional half. -/
theorem storage_conversion_lossy :
    ¬ ModelLossless towardsZero llvmFloats (.scalar .tf32) ∧ ¬ ModelLossless towardsZero llvmFloats (.scalar (.fp8 .e5m2)) ∧
      ¬ ModelLossless towardsZero llvmFloats (.struct [.tuple []]) ∧
      valueToStorage towardsZero (.struct [.scalar .float16, .scalar .boolean])
        (.struct [.scalar (.float .f16) (0 : BitVec 16), .scalar (.int 1) (0 : BitVec 1)]) = none := by
  refine ⟨fun h => ?_, fun h => ?_, fun h => ?_, ?_⟩
  · exact ((data_lossless_iff _ _).mp h.1).1 rfl
  · exact ((data_lossless_iff _ _).mp h.1).2 _ rfl
  · obtain ⟨t, -, ht, -⟩ := h.1
    cases ht
  · exact valueToStorage_struct rfl rfl rfl (by simp [Kind.valueType, Kind.dataType])

end NumbaCudaMlir.StorageConversion
