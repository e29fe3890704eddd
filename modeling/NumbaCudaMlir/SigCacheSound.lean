import NumbaCudaMlir.KeySound
import NumbaCudaMlir.SigCache

/-!
# Cached signatures

The entries of the signature caches hold the types of the arguments they were
made for. A cached route hands over the types that the route without a cache
would compute, where the arguments agree with those of the entry in what
`typeof` reads of a value beyond its class, and of an array beyond its key.
-/

namespace NumbaCudaMlir

def ArrayObj.typeofLayout (ary : ArrayObj) : Option Layout :=
  match ary.cls with
  | .torchTensor | .cupyNdarray => some .C
  | .managedNdarray => some ary.flags
  | .foreign _ _ dlpack _ =>
    if dlpack ∧ (dlpackDtype ary.dtype).isSome then some ary.flags
    else (fromDtype ary.dtype).bind fun d => interfaceLayout d ary.shape ary.strides

namespace SigCache

open CInt Runs

/-! ## Agreement with an entry -/

inductive ValueKind where
  | plain
  | integer (int64 uint64 : Bool)
  | datetime (unit : String)
  | record (fields : String) (itemsize : Nat)
  | declared (t : Option NumbaType)

def valueKind : PyObj → ValueKind
  | .long .bool _ | .long (.intEnum _) _ => .plain
  | .long _ v => .integer (InInt64 v) (InUInt64 v)
  | .npDatetime _ unit _ => .datetime unit
  | .npVoid r => .record r.fields r.itemsize
  | .object o => .declared o.numbaType
  | _ => .plain

section
variable (attrs : Attributes)

/-- Whether the dtype of the key is that of the array. -/
def DtypeKnown (ary : ArrayObj) : Prop :=
  ary.cls.hasNpDtype = true ∨ ary.cls.hasCudaArrayInterface = true ∧ ary.dtype.kindChar ≠ 'V'

/-- Arrays of one class and one key that also agree in layout, and in what the key takes from the cached type. -/
def SameArray : PyObj → PyObj → Prop
  | .deviceArray x, .deviceArray y => x.layout = y.layout
  | .array x, .array y => x.typeofLayout = y.typeofLayout ∧ (¬ DtypeKnown x → x.dtype = y.dtype) ∧
      (¬ (attrs.ndim x.cls ∨ attrs.shape x.cls ∨ x.cls.hasCudaArrayInterface) → x.ndim = y.ndim) ∧
      (¬ (x.cls.hasCudaArrayInterface ∨ attrs.flags x.cls) → x.readonly = y.readonly)
  | _, _ => True

/-- An argument and that of an entry at the same position, which is `checked` when it has an array type. -/
def Agree (checked : Bool) : HostValue → HostValue → Prop
  | .obj x, .obj y => valueKind x = valueKind y ∧
      if checked then SameArray attrs x y
      -- An array without a type stays without one.
      else y.type.isArray = true → NumbaCudaMlir.typeof y = none
  | .seq _ xs, .seq _ ys => xs = [] → ys = []
  | _, _ => True

/-! ## Equal types -/

variable {attrs}

theorem arrayCacheKey_parts {ty : NumbaType} {arg : PyObj} {key : ArrayCacheKey} (ha : arg.type.isArray = true)
    (h : arrayCacheKey attrs ty (.obj arg) = some key) : arrayDtype ty arg = some key.dtype ∧
      (arrayNdim attrs arg).or ((arrayParts ty).map fun (_, n, _) => n) = some key.ndim ∧
      arrayReadonly attrs ty arg = key.readonly := by
  rw [arrayCacheKey] at h
  · simp only [Option.bind_eq_bind, Option.bind_eq_some_iff] at h
    obtain ⟨d, hd, n, hn, l, -, h⟩ := h
    cases h
    exact ⟨hd, hn, rfl⟩
  · intro o ho
    rw [ho] at ha
    cases ha

theorem deviceArray_numbaType_eq {x y : DeviceNDArray} {ty : NumbaType} {key : ArrayCacheKey}
    (hx : arrayCacheKey attrs ty (.obj (.deviceArray x)) = some key)
    (hy : arrayCacheKey attrs ty (.obj (.deviceArray y)) = some key)
    (h : SameArray attrs (.deviceArray x) (.deviceArray y)) : x.numbaType = y.numbaType := by
  obtain ⟨hdx, hnx, -⟩ := arrayCacheKey_parts rfl hx
  obtain ⟨hdy, hny, -⟩ := arrayCacheKey_parts rfl hy
  have hd : x.dtype = y.dtype := Option.some.inj (hdx.trans hdy.symm)
  have hn : x.shape.length = y.shape.length := Option.some.inj (hnx.trans hny.symm)
  have hl : x.layout = y.layout := h
  rw [DeviceNDArray.numbaType, DeviceNDArray.numbaType, hd, hn, hl]

theorem array_dtype_eq {x y : ArrayObj} {ty : NumbaType} {d : NpDType} (hcls : x.cls = y.cls) (hk : DtypeKnown x)
    (hx : arrayDtype ty (.array x) = some d) (hy : arrayDtype ty (.array y) = some d) : x.dtype = y.dtype := by
  simp only [arrayDtype, ← hcls] at hx hy
  by_cases hnp : x.cls.hasNpDtype = true
  · rw [if_pos hnp] at hx hy
    exact Option.some.inj (hx.trans hy.symm)
  · obtain ⟨hcai, hv⟩ := hk.resolve_left hnp
    rw [if_neg hnp, if_pos hcai] at hx hy
    have he : typestrDtype x.dtype = typestrDtype y.dtype := Option.some.inj (hx.trans hy.symm)
    cases hdx : x.dtype with
    | void => rw [hdx] at hv; exact absurd rfl hv
    | _ =>
      rw [hdx] at he
      cases hdy : y.dtype with
      | void => rw [hdy] at he; cases he
      | _ => rw [hdy] at he; exact he

theorem array_numbaType_eq {x y : ArrayObj} {ty : NumbaType} {key : ArrayCacheKey} (hcls : x.cls = y.cls)
    (hx : arrayCacheKey attrs ty (.obj (.array x)) = some key)
    (hy : arrayCacheKey attrs ty (.obj (.array y)) = some key) (h : SameArray attrs (.array x) (.array y)) :
    x.numbaType = y.numbaType := by
  obtain ⟨hdx, hnx, hrx⟩ := arrayCacheKey_parts rfl hx
  obtain ⟨hdy, hny, hry⟩ := arrayCacheKey_parts rfl hy
  obtain ⟨hl, hd, hn, hr⟩ := h
  have hd : x.dtype = y.dtype := by
    by_cases hk : DtypeKnown x
    · exact array_dtype_eq hcls hk hdx hdy
    · exact hd hk
  have hn : x.ndim = y.ndim := by
    by_cases hk : attrs.ndim x.cls ∨ attrs.shape x.cls ∨ x.cls.hasCudaArrayInterface
    · have hrank {z : ArrayObj} (hz : z.cls = x.cls) : arrayNdim attrs (.array z) = some z.ndim := by
        rw [arrayNdim, arrayShape, hz]
        split
        · rfl
        · next hno => rw [if_pos (hk.resolve_left hno)]; rfl
      rw [hrank rfl] at hnx
      rw [hrank hcls.symm] at hny
      exact Option.some.inj (hnx.trans hny.symm)
    · exact hn hk
  have hr : x.readonly = y.readonly := by
    by_cases hk : x.cls.hasCudaArrayInterface ∨ attrs.flags x.cls
    · rw [arrayReadonly, if_pos hk] at hrx
      rw [arrayReadonly, ← hcls, if_pos hk] at hry
      exact hrx.trans hry.symm
    · exact hr hk
  rw [ArrayObj.typeofLayout, ArrayObj.typeofLayout, ← hcls, ← hd] at hl
  rw [ArrayObj.numbaType, ArrayObj.numbaType, ← hcls, ← hd, hn, hr]
  cases hf : fromDtype x.dtype with
  | none => rfl
  | some d =>
    cases hc : x.cls with
    | foreign id cai dlpack dt =>
      simp only [hc, hf, Option.bind_some] at hl ⊢
      split at hl
      · next hdl => rw [if_pos hdl, if_pos hdl, Option.some.inj hl]
      · next hdl => rw [if_neg hdl, if_neg hdl, hl]
    | managedNdarray => simp only [hc] at hl ⊢; rw [Option.some.inj hl]
    | _ => rfl

theorem typeof_eq_of_kind {x y : PyObj} (hty : x.type = y.type) (hk : valueKind x = valueKind y)
    (harr : x.type.isArray = true → NumbaCudaMlir.typeof x = NumbaCudaMlir.typeof y) :
    NumbaCudaMlir.typeof x = NumbaCudaMlir.typeof y := by
  have hint {v w : Int} (h : ValueKind.integer (InInt64 v) (InUInt64 v) = .integer (InInt64 w) (InUInt64 w)) :
      typeofInt v = typeofInt w := by
    simp only [ValueKind.integer.injEq, decide_eq_decide] at h
    rw [typeofInt, typeofInt, if_congr h.1 rfl rfl, if_congr h.2 rfl rfl]
  cases x with
  | deviceArray | array => exact harr rfl
  | long cls v =>
    cases y with
    | long cls' w =>
      cases hty
      cases cls with
      | bool | intEnum => rfl
      | int | sub => exact hint hk
    | npDatetime t => cases t <;> cases hty
    | npVoid r => obtain ⟨isRecord, fs, n, p⟩ := r; cases isRecord <;> cases hty
    | _ => cases hty
  | npDatetime t u ticks =>
    cases y with
    | npDatetime t' u' ticks' =>
      have hu : u = u' := ValueKind.datetime.inj hk
      have ht : t = t' := by cases t <;> cases t' <;> first | rfl | cases hty
      rw [ht, hu]
      rfl
    | npVoid r => cases hk
    | _ => cases t <;> cases hty
  | npVoid r =>
    cases y with
    | npVoid r' =>
      obtain ⟨hf, hn⟩ := ValueKind.record.inj hk
      rw [NumbaCudaMlir.typeof, NumbaCudaMlir.typeof, hf, hn]
    | npDatetime t => cases hk
    | _ => obtain ⟨isRecord, fs, n, p⟩ := r; cases isRecord <;> cases hty
  | object o =>
    cases y with
    | object o' => exact ValueKind.declared.inj hk
    | npDatetime t => cases hk
    | npVoid r => cases hk
    | _ => cases hty
  | npInteger n =>
    cases y with
    | npInteger m =>
      obtain ⟨hs, hz⟩ := PyType.npInteger.inj hty
      rw [NumbaCudaMlir.typeof, NumbaCudaMlir.typeof, hs, hz]
    | npDatetime t => cases t <;> cases hty
    | npVoid r => obtain ⟨isRecord, fs, n, p⟩ := r; cases isRecord <;> cases hty
    | _ => cases hty
  | _ =>
    cases y with
    | npDatetime t => cases t <;> cases hty
    | npVoid r => obtain ⟨isRecord, fs, n, p⟩ := r; cases isRecord <;> cases hty
    | _ => cases hty <;> rfl

theorem array_untyped {x : PyObj} (harr : x.type.isArray = true) (h : isArray (typeof (.obj x)) = false) :
    NumbaCudaMlir.typeof x = none := by
  cases ht : NumbaCudaMlir.typeof x with
  | none => rfl
  | some t =>
    rw [← arrayType_isSome, Option.isSome_iff_exists] at harr
    obtain ⟨⟨d, n⟩, ha⟩ := harr
    obtain ⟨s, l, r, -, rfl⟩ := typeof_array ha ht
    have hty : typeof (.obj x) = some (.array s n l r) := ht
    rw [hty] at h
    cases h

theorem toDeviceItem_of_passThrough {v : HostValue} (h : v.passThrough = true) : v.toDeviceItem = v := by
  cases v with
  | obj o =>
    cases o with
    | float cls bits => cases cls <;> first | rfl | cases h
    | _ => rfl
  | seq cls elems =>
    cases cls with
    | list => cases h
    | tuple => rw [List.isEmpty_iff.mp h]; rfl
  | other => rfl
  | _ => cases h

theorem passThrough_obj (x : PyObj) : (HostValue.obj x).passThrough = decide (x.type ≠ .float .npFloat64) := by
  cases x with
  | float cls => cases cls <;> rfl
  | npDatetime t => cases t <;> rfl
  | npVoid r => obtain ⟨isRecord, fs, n, p⟩ := r; cases isRecord <;> rfl
  | _ => rfl

/-- An argument that agrees with one that passed through has the same type, at a checked position
when it also has the same key. -/
theorem deviceType_eq {a b : HostValue} (hcls : pyClass a = pyClass b) (hpass : a.passThrough = true)
    (hagree : Agree attrs (isArray (typeof a)) a b)
    (hkey : ∀ ty, typeof a = some ty → isArray (some ty) = true →
      ∃ key, arrayCacheKey attrs ty a = some key ∧ arrayCacheKey attrs ty b = some key) :
    typeof b.toDeviceItem = typeof a := by
  cases a with
  | obj x =>
    cases b with
    | obj y =>
      have hty : x.type = y.type := PyClass.native.inj hcls
      have hpass' : (HostValue.obj y).passThrough = true := by rw [passThrough_obj, ← hty, ← passThrough_obj, hpass]
      rw [toDeviceItem_of_passThrough hpass']
      obtain ⟨hk, hsame⟩ := hagree
      refine (typeof_eq_of_kind hty hk fun harr => ?_).symm
      cases hc : isArray (typeof (.obj x)) with
      | false =>
        rw [hc] at hsame
        rw [array_untyped harr hc, hsame (hty ▸ harr)]
      | true =>
        rw [hc, if_pos rfl] at hsame
        obtain ⟨ty, ht⟩ : ∃ ty, typeof (.obj x) = some ty := by
          cases ht : typeof (.obj x) with
          | some ty => exact ⟨ty, rfl⟩
          | none => rw [ht] at hc; cases hc
        obtain ⟨key, hx, hy⟩ := hkey ty ht (ht ▸ hc)
        rcases PyType.isArray_cases harr with ⟨ary, rfl⟩ | ⟨ary, rfl⟩
        · rcases PyType.isArray_cases (hty ▸ harr) with ⟨ary', rfl⟩ | ⟨ary', rfl⟩
          · exact deviceArray_numbaType_eq hx hy hsame
          · cases hty
        · rcases PyType.isArray_cases (hty ▸ harr) with ⟨ary', rfl⟩ | ⟨ary', rfl⟩
          · cases hty
          · exact array_numbaType_eq (PyType.array.inj hty) hx hy hsame
    | _ => cases hcls
  | seq cls xs =>
    cases b with
    | seq cls' ys =>
      cases hcls
      cases cls with
      | list => cases hpass
      | tuple =>
        have hx : xs = [] := List.isEmpty_iff.mp hpass
        rw [hx, hagree hx]
        rfl
    | _ => cases hcls
  | other cls =>
    cases b with
    | other cls' => rfl
    | _ => cases hcls
  | _ => cases hpass

/-! ## Checks -/

theorem mem_arrayChecksFrom {args : List HostValue} : ∀ {types : List (Option NumbaType)} {idx : Nat}
    {checks : List (Nat × ArrayCacheKey)}, arrayChecksFrom attrs idx args types = some checks →
    ∀ {p : Nat} {a : HostValue} {ty : NumbaType}, args[p]? = some a → types[p]? = some (some ty) →
    isArray (some ty) = true → ∃ key, (idx + p, key) ∈ checks ∧ arrayCacheKey attrs ty a = some key := by
  induction args with
  | nil => intro types idx checks _ p a ty ha; cases ha
  | cons arg args ih =>
    intro types idx checks h p a ty ha ht hty
    cases types with
    | nil => cases ht
    | cons t types =>
      rw [arrayChecksFrom] at h
      cases p with
      | zero =>
        cases ha
        cases ht
        rw [if_pos hty] at h
        simp only [Option.bind_eq_bind, Option.bind_some, Option.bind_eq_some_iff] at h
        obtain ⟨key, hkey, rest, -, h⟩ := h
        cases h
        exact ⟨key, List.mem_cons_self, hkey⟩
      | succ p =>
        have hrest {rest : List (Nat × ArrayCacheKey)} (hr : arrayChecksFrom attrs (idx + 1) args types = some rest) :
            ∃ key, (idx + (p + 1), key) ∈ rest ∧ arrayCacheKey attrs ty a = some key := by
          have hih := ih hr ha ht hty
          rw [Nat.add_assoc, Nat.add_comm 1 p] at hih
          exact hih
        split at h
        · simp only [Option.bind_eq_bind, Option.bind_eq_some_iff] at h
          obtain ⟨key, -, rest, hr, h⟩ := h
          cases h
          obtain ⟨key', hm, hkey⟩ := hrest hr
          exact ⟨key', List.mem_cons_of_mem _ hm, hkey⟩
        · exact hrest h

theorem mem_of_passes {args : List HostValue} {argtypes : List (Option NumbaType)} {checks : List (Nat × ArrayCacheKey)}
    (h : passes attrs args argtypes checks = some true) : ∀ c ∈ checks, ∃ b ty, args[c.1]? = some b ∧
      argtypes[c.1]?.join = some ty ∧ arrayCacheKey attrs ty b = some c.2 := by
  induction checks with
  | nil => exact List.forall_mem_nil _
  | cons c checks ih =>
    simp only [passes, Option.bind_eq_bind, Option.bind_eq_some_iff] at h
    obtain ⟨b, hb, ty, hty, key, hkey, h⟩ := h
    split at h
    · cases h
    · next heq =>
      rw [not_not] at heq
      exact List.forall_mem_cons.mpr ⟨⟨b, ty, hb, hty, heq ▸ hkey⟩, ih h⟩

theorem findEntry_some {args : List HostValue} {entries : List ArrayEntry} {e : ArrayEntry}
    (h : findEntry attrs args entries = some (some e)) :
    e ∈ entries ∧ passes attrs args e.argtypes e.arrayChecks = some true := by
  induction entries with
  | nil => cases h
  | cons e' entries ih =>
    simp only [findEntry, Option.bind_eq_bind, Option.bind_eq_some_iff] at h
    obtain ⟨ok, hok, h⟩ := h
    cases ok with
    | true => cases h; exact ⟨List.mem_cons_self, hok⟩
    | false => exact (ih h).imp (List.mem_cons_of_mem _) id

/-! ## The invariant -/

structure EntryOf (key : List PyClass) (args : List HostValue) (argtypes : List (Option NumbaType)) : Prop where
  typeKey : typeKey args = key
  pass : ∀ a ∈ args, a.passThrough = true
  argtypes : argtypes = args.map typeof

variable (attrs)

structure Inv (s : SigState) : Prop where
  sig : ∀ key e, s.sigCache key = some e → e.fastOk = true →
    EntryOf key e.args e.argtypes ∧ ∀ ty ∈ e.argtypes, isArray ty = false
  arrays : ∀ key, ∀ e ∈ s.arraySigCache key,
    EntryOf key e.args e.argtypes ∧ arrayChecksFrom attrs 0 e.args e.argtypes = some e.arrayChecks
  log : ∀ l ∈ s.log, l.argtypes = uncachedArgtypes l.disp l.args

theorem inv_init : Inv attrs .init := ⟨nofun, nofun, nofun⟩

/-! ## The condition -/

def AgreeAll (argtypes : List (Option NumbaType)) (cached args : List HostValue) : Prop :=
  ∀ (p : Nat) (a b : HostValue), cached[p]? = some a → args[p]? = some b → Agree attrs (isArray argtypes[p]?.join) a b

/-- The entries of its classes that a call passes the checks of are for arguments that agree with
its own, and the dispatcher has no better overload for them. -/
def EntriesAgree (s : SigState) (c : Call) : Prop :=
  match s.sigCache (typeKey c.args) with
  | none => True
  | some e =>
    if e.fastOk then coerceToOverload c.disp e.argtypes = none ∧ AgreeAll attrs e.argtypes e.args c.args
    else
      ∀ e ∈ s.arraySigCache (typeKey c.args), passes attrs c.args e.argtypes e.arrayChecks = some true →
        coerceToOverload c.disp e.argtypes = none ∧ AgreeAll attrs e.argtypes e.args c.args

variable {attrs}

/-! ## Cached routes -/

theorem EntryOf.uncached {c : Call} {args : List HostValue} {argtypes : List (Option NumbaType)}
    (h : EntryOf (SigCache.typeKey c.args) args argtypes) (hcoerce : coerceToOverload c.disp argtypes = none)
    (hagree : AgreeAll attrs argtypes args c.args)
    (hkeys : ∀ (p : Nat) a b ty, args[p]? = some a → c.args[p]? = some b → typeof a = some ty → isArray (some ty) = true →
      ∃ key, arrayCacheKey attrs ty a = some key ∧ arrayCacheKey attrs ty b = some key) :
    argtypes = uncachedArgtypes c.disp c.args := by
  have htypes : deviceTypes c.args = argtypes := by
    rw [h.argtypes]
    refine List.ext_getElem? fun p => ?_
    have hcls := congrArg (fun key : List PyClass => key[p]?) h.typeKey
    simp only [SigCache.typeKey, List.getElem?_map] at hcls
    rw [deviceTypes, List.getElem?_map, List.getElem?_map]
    cases ha : args[p]? with
    | none =>
      cases hb : c.args[p]? with
      | none => rfl
      | some b => rw [ha, hb] at hcls; cases hcls
    | some a =>
      cases hb : c.args[p]? with
      | none => rw [ha, hb] at hcls; cases hcls
      | some b =>
        rw [ha, hb] at hcls
        have hab := hagree p a b ha hb
        rw [h.argtypes, List.getElem?_map, ha] at hab
        have heq := deviceType_eq (Option.some.inj hcls) (h.pass a (List.mem_of_getElem? ha)) hab
          (fun ty => hkeys p a b ty ha hb)
        exact congrArg some heq
  rw [uncachedArgtypes, htypes, hcoerce]
  rfl

theorem Inv.fast_route {s : SigState} (h : Inv attrs s) {c : Call} {e : SigEntry}
    (hs : s.sigCache (typeKey c.args) = some e) (hfast : e.fastOk = true)
    (hcoerce : coerceToOverload c.disp e.argtypes = none) (hagree : AgreeAll attrs e.argtypes e.args c.args) :
    e.argtypes = uncachedArgtypes c.disp c.args := by
  obtain ⟨hentry, hna⟩ := h.sig _ e hs hfast
  refine hentry.uncached hcoerce hagree ?_
  intro p a b ty ha _ ht hty
  have hmem : some ty ∈ e.argtypes := by
    rw [hentry.argtypes, ← ht]
    exact List.mem_map_of_mem (List.mem_of_getElem? ha)
  rw [hna _ hmem] at hty
  cases hty

theorem Inv.array_route {s : SigState} (h : Inv attrs s) {c : Call} {e : ArrayEntry}
    (hm : e ∈ s.arraySigCache (typeKey c.args)) (hpass : passes attrs c.args e.argtypes e.arrayChecks = some true)
    (hcoerce : coerceToOverload c.disp e.argtypes = none) (hagree : AgreeAll attrs e.argtypes e.args c.args) :
    e.argtypes = uncachedArgtypes c.disp c.args := by
  obtain ⟨hentry, hchecks⟩ := h.arrays _ e hm
  refine hentry.uncached hcoerce hagree ?_
  intro p a b ty ha hb ht hty
  have htp : e.argtypes[p]? = some (some ty) := by rw [hentry.argtypes, List.getElem?_map, ha, ← ht]; rfl
  obtain ⟨key, hmem, hkey⟩ := mem_arrayChecksFrom hchecks ha htp hty
  rw [Nat.zero_add] at hmem
  obtain ⟨b', ty', hb', hty', hkey'⟩ := mem_of_passes hpass _ hmem
  rw [hb, Option.some.injEq] at hb'
  rw [htp] at hty'
  cases hty'
  exact ⟨key, hkey, hb' ▸ hkey'⟩

/-! ## Stored entries -/

theorem Inv.setSig {s : SigState} (h : Inv attrs s) {key : List PyClass} {e : SigEntry}
    (he : e.fastOk = true → EntryOf key e.args e.argtypes ∧ ∀ ty ∈ e.argtypes, isArray ty = false) :
    Inv attrs (s.setSig key e) where
  sig := by
    intro key' e' hs hfast
    by_cases hk : key' = key
    · rw [hk] at hs
      cases (setAt_self s.sigCache key (some e)).symm.trans hs
      exact hk ▸ he hfast
    · exact h.sig key' e' ((setAt_ne s.sigCache (some e) hk).symm.trans hs) hfast
  arrays := h.arrays
  log := h.log

theorem Inv.setArrays {s : SigState} (h : Inv attrs s) {key : List PyClass} {entries : List ArrayEntry}
    (he : ∀ e ∈ entries, EntryOf key e.args e.argtypes ∧ arrayChecksFrom attrs 0 e.args e.argtypes = some e.arrayChecks) :
    Inv attrs (s.setArrays key entries) where
  sig := h.sig
  arrays := by
    intro key' e hm
    by_cases hk : key' = key
    · rw [hk] at hm ⊢
      exact he e (setAt_self s.arraySigCache key entries ▸ hm)
    · exact h.arrays key' e (setAt_ne s.arraySigCache entries hk ▸ hm)
  log := h.log

theorem entryOf_call {c : Call} (hpass : c.args.all (·.passThrough) = true)
    (hcoerce : (coerceToOverload c.disp (deviceTypes c.args)).isNone = true) :
    EntryOf (typeKey c.args) c.args (uncachedArgtypes c.disp c.args) := by
  rw [List.all_eq_true] at hpass
  refine ⟨rfl, hpass, ?_⟩
  rw [uncachedArgtypes, Option.isNone_iff_eq_none.mp hcoerce, Option.getD_none, deviceTypes]
  exact List.map_congr_left fun a ha => by rw [toDeviceItem_of_passThrough (hpass a ha)]

theorem Inv.store {s : SigState} (h : Inv attrs s) (c : Call) : Inv attrs (store attrs s c) := by
  simp only [SigCache.store]
  split
  · next hfast =>
    obtain ⟨hall, -, hna⟩ := hfast
    rw [Bool.and_eq_true] at hall
    refine h.setSig fun _ => ⟨entryOf_call hall.1 hall.2, ?_⟩
    intro ty hm
    by_contra hty
    exact hna (List.any_eq_true.mpr ⟨ty, hm, by simpa using hty⟩)
  · have hslow : Inv attrs (s.addSig (typeKey c.args) ⟨uncachedArgtypes c.disp c.args, false, c.args⟩) := by
      rw [SigState.addSig]
      split
      · exact h.setSig nofun
      · exact h
    split
    · next harr =>
      have hall := harr.2
      rw [Bool.and_eq_true] at hall
      split
      · exact hslow
      · next checks hc =>
        split
        · exact hslow
        · refine hslow.setArrays ?_
          intro e hm
          rcases List.mem_append.mp (List.mem_of_mem_drop hm) with hm | hm
          · exact hslow.arrays _ e hm
          · rw [List.mem_singleton.mp hm]
            exact ⟨entryOf_call hall.1 hall.2, hc⟩
    · exact hslow

theorem Inv.launchCached {s : SigState} (h : Inv attrs s) {c : Call} {argtypes : List (Option NumbaType)}
    (heq : argtypes = uncachedArgtypes c.disp c.args) : Inv attrs (launchCached s c argtypes) :=
  ⟨h.sig, h.arrays, List.forall_mem_cons.mpr ⟨heq, h.log⟩⟩

theorem Inv.launchUncached {s : SigState} (h : Inv attrs s) (c : Call) : Inv attrs (launchUncached attrs s c) := by
  rw [SigCache.launchUncached]
  split
  · exact h.store c
  · exact h

theorem Inv.callImpl {s : SigState} (h : Inv attrs s) {c : Call} (hok : EntriesAgree attrs s c) :
    Inv attrs (callImpl attrs s c) := by
  rw [EntriesAgree] at hok
  rw [SigCache.callImpl]
  cases hs : s.sigCache (typeKey c.args) with
  | none => exact h.launchUncached c
  | some e =>
    simp only [hs] at hok ⊢
    cases hfast : e.fastOk with
    | true =>
      rw [hfast, if_pos rfl] at hok
      rw [if_pos rfl]
      exact h.launchCached (h.fast_route hs hfast hok.1 hok.2)
    | false =>
      rw [hfast, if_neg (by decide)] at hok
      rw [if_neg (by decide)]
      cases hf : findEntry attrs c.args (s.arraySigCache (typeKey c.args)) with
      | none => exact h
      | some found =>
        cases found with
        | none => exact h.launchUncached c
        | some e' =>
          obtain ⟨hm, hpass⟩ := findEntry_some hf
          obtain ⟨hcoerce, hagree⟩ := hok e' hm hpass
          exact h.launchCached (h.array_route hm hpass hcoerce hagree)

/-- **Cached routes.** In every sequence of calls that all meet `EntriesAgree`, the types that a cached
route hands to the launch are those of the route without a cache. -/
theorem cached_argtypes {calls : List Call} {s : SigState} (hok : StepsOk (step attrs) (EntriesAgree attrs) .init calls)
    (hr : run (step attrs) .init calls = some s) : ∀ l ∈ s.log, l.argtypes = uncachedArgtypes l.disp l.args := by
  have hstep : ∀ s c s', Inv attrs s → EntriesAgree attrs s c → step attrs s c = some s' → Inv attrs s' := by
    intro s c s' h hok hs
    cases hs
    exact h.callImpl hok
  exact (run_inv (step attrs) hstep (inv_init attrs) hok hr).log

end

def allAttributes : Attributes := ⟨fun _ => true, fun _ => true, fun _ => true, ArrayObj.strides, fun _ _ => none⟩

def intCall (v : Int) : Call := ⟨⟨true, []⟩, [.obj (.long .int v)], true⟩

/-- The cached type of 5 is handed over for an unsigned integer. -/
theorem cached_int64_for_uint64 : ∃ s, run (step allAttributes) .init [intCall 5, intCall 9223372036854775808] = some s ∧
    ¬ ∀ l ∈ s.log, l.argtypes = uncachedArgtypes l.disp l.args := by
  refine ⟨_, rfl, ?_⟩
  intro h
  have hl := h _ List.mem_cons_self
  exact absurd hl (by decide)

theorem cached_int64_for_int64 : ∃ s, run (step allAttributes) .init [intCall 5, intCall 7] = some s ∧
    ∀ l ∈ s.log, l.argtypes = uncachedArgtypes l.disp l.args := by
  have hok : StepsOk (step allAttributes) (EntriesAgree allAttributes) .init [intCall 5, intCall 7] := by
    refine stepsOk_cons _ rfl trivial (stepsOk_cons _ rfl ⟨rfl, ?_⟩ trivial)
    intro p a b ha hb
    match p with
    | 0 => cases ha; cases hb; exact ⟨rfl, nofun⟩
    | p + 1 => cases ha
  exact ⟨_, rfl, cached_argtypes hok rfl⟩

/-- The key of an array tells apart no rows of length one: these two have one key and two layouts. -/
example : let x : DeviceNDArray := ⟨.numeric .float .s8, [1, 5], [8, 8], rfl, 0⟩
    let y : DeviceNDArray := ⟨.numeric .float .s8, [2, 5], [8, 16], rfl, 0⟩
    arrayCacheKey allAttributes float64 (.obj (.deviceArray x)) =
      arrayCacheKey allAttributes float64 (.obj (.deviceArray y)) ∧ x.layout ≠ y.layout := by decide

end SigCache

end NumbaCudaMlir
