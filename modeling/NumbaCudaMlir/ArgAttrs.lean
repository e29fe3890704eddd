import NumbaCudaMlir.AbiFlattenSound
import NumbaCudaMlir.Dict

/-!
# Parameter attributes

A Numba type may carry attributes for its parameter. `MLIRLower` lists them by
argument position, and `fixup_nvvm_arg_attrs` moves them to the LLVM parameters that
each argument became.
-/

namespace NumbaCudaMlir.ArgAttrs

open AbiFlatten

inductive AttrValue (T : Type) where
  | bool (b : Bool)
  | int (n : Int)
  | type (ty : T)
  | other
  deriving DecidableEq, Repr

inductive Attr (T : Type) where
  | unit
  | i64 (n : Int)
  | type (ty : T)
  deriving DecidableEq, Repr

inductive Error where
  | indexError
  | notImplementedError
  deriving DecidableEq, Repr

abbrev DictAttr (T : Type) := Dict String (Attr T)

/-- A parameter of a function with its `__numba_cuda_mlir_attributes__`. -/
structure Param (L T : Type) where
  argtype : ArgType L
  attributes : Dict String (AttrValue T)

section
variable {L T : Type}

/-! ## Lowering -/

def setAttr (argAttrs : List (DictAttr T)) (i : Nat) (key : String) (attr : Attr T) : Except Error (List (DictAttr T)) :=
  match argAttrs[i]? with
  | some d => .ok (argAttrs.set i (d.set key attr))
  | none => .error .indexError

def attachAttr (i : Nat) (argAttrs : List (DictAttr T)) (e : String × AttrValue T) : Except Error (List (DictAttr T)) :=
  match e.2 with
  | .bool true => setAttr argAttrs i e.1 .unit
  | .bool false => .ok argAttrs
  | .int n => setAttr argAttrs i e.1 (.i64 n)
  | .type ty => setAttr argAttrs i e.1 (.type ty)
  | .other => .error .notImplementedError

/-- The loop over the attributes of argument `i`. -/
def attachAttrs (i : Nat) (argAttrs : List (DictAttr T)) :
    List (String × AttrValue T) → Except Error (List (DictAttr T))
  | [] => .ok argAttrs
  | e :: es => do attachAttrs i (← attachAttr i argAttrs e) es

def attachAll (i : Nat) (argAttrs : List (DictAttr T)) : List (Param L T) → Except Error (List (DictAttr T))
  | [] => .ok argAttrs
  | a :: params => do attachAll (i + 1) (← attachAttrs i argAttrs a.attributes.entries) params

def argtypes (params : List (Param L T)) : List (ArgType L) := params.map Param.argtype

def argAttrs (params : List (Param L T)) : Except Error (List (DictAttr T)) :=
  attachAll 0 (List.replicate (setupFuncOp (argtypes params)).length Dict.empty) params

/-! ## Lowering to LLVM -/

inductive MlirType where
  | memref (rank : Nat)
  | other
  deriving DecidableEq, Repr

structure FuncOp (T : Type) where
  -- `numba_cuda_mlir.arg_attrs`
  numbaArgAttrs : Option (List (DictAttr T))
  origArgTypes : List MlirType
  argAttrs : Option (List (DictAttr T))

def newArgAttr (argAttr : DictAttr T) : DictAttr T :=
  argAttr.entries.foldl (fun new e =>
    if e.1 = "numba_cuda_mlir.grid_constant" then new.set "nvvm.grid_constant" .unit else new.set e.1 e.2) Dict.empty

/-- The dictionaries that one round of the loop appends. -/
def expandAttr (argAttr : DictAttr T) : MlirType → List (DictAttr T)
  | .memref r =>
    [newArgAttr argAttr] ++ [newArgAttr argAttr] ++ [Dict.empty] ++ List.replicate r Dict.empty ++
      List.replicate r Dict.empty
  | .other => [newArgAttr argAttr]

/-- The loop over the dictionaries, with the types from the same position on. -/
def expandAttrs : List (DictAttr T) → List MlirType → Except Error (List (DictAttr T))
  | [], _ => .ok []
  | d :: ds, t :: ts => do return expandAttr d t ++ (← expandAttrs ds ts)
  | _ :: _, [] => .error .indexError

def fixupNvvmArgAttrs (op : FuncOp T) : Except Error (FuncOp T) :=
  match op.numbaArgAttrs with
  | none => .ok op
  | some attrs =>
    if attrs.all fun d => d.entries.isEmpty then .ok op
    else do return { numbaArgAttrs := none, origArgTypes := [], argAttrs := some (← expandAttrs attrs op.origArgTypes) }

/-- What an LLVM parameter of a lowered argument holds. -/
inductive Slot where
  | value | allocated | aligned | offset | size | stride
  deriving DecidableEq, Repr

def slots : MlirType → List Slot
  | .memref r => [.allocated, .aligned, .offset] ++ List.replicate r .size ++ List.replicate r .stride
  | .other => [.value]

/-- The LLVM parameters of a function, each with the position of its argument. -/
def llvmParameters (inputs : List MlirType) : List (Nat × Slot) :=
  inputs.zipIdx.flatMap fun x => (slots x.1).map fun s => (x.2, s)

def FuncOp.attrsOf (op : FuncOp T) (q : Nat) : DictAttr T := ((op.argAttrs.bind (·[q]?)).getD Dict.empty)

variable (getArgumentType : L → MlirType)

def inputs (params : List (Param L T)) : List MlirType := (setupFuncOp (argtypes params)).map getArgumentType

def loweredOp (params : List (Param L T)) (attrs : List (DictAttr T)) : FuncOp T :=
  ⟨some attrs, inputs getArgumentType params, none⟩

/-! ## Where attributes belong -/

def attrOf : AttrValue T → Option (Attr T)
  | .bool true => some .unit
  | .bool false => none
  | .int n => some (.i64 n)
  | .type ty => some (.type ty)
  | .other => none

/-- The dictionary of a parameter's attributes. -/
def describe (attributes : Dict String (AttrValue T)) : DictAttr T :=
  attributes.entries.foldl (fun d e => ((attrOf e.2).map fun a => d.set e.1 a).getD d) Dict.empty

/-- Parameter `i` is flattened to position `p`, and others. -/
def Owns (params : List (Param L T)) (i : Nat) (a : Param L T) (p : Nat) : Prop :=
  params[i]? = some a ∧ flatArgStartIndex (argtypes params) i ≤ p ∧
    p < flatArgStartIndex (argtypes params) i + argCount a.argtype

def Slot.isPointerOrValue : Slot → Bool
  | value | allocated | aligned => true
  | offset | size | stride => false

/-- Both steps succeed, each position has the attributes of the parameter that owns it, and
so have the LLVM parameters that become of it. -/
def AttrsLand (params : List (Param L T)) : Prop :=
  ∃ attrs op, argAttrs params = .ok attrs ∧ fixupNvvmArgAttrs (loweredOp getArgumentType params attrs) = .ok op ∧
    (∀ i a p, Owns params i a p → attrs[p]? = some (describe a.attributes)) ∧
    (∀ i a p q s, (llvmParameters (inputs getArgumentType params))[q]? = some (p, s) → Owns params i a p →
      op.attrsOf q = if s.isPointerOrValue then newArgAttr (describe a.attributes) else Dict.empty) ∧
    ∀ q, (llvmParameters (inputs getArgumentType params)).length ≤ q → op.attrsOf q = Dict.empty

def Attributed (a : Param L T) : Prop := ∃ e ∈ a.attributes.entries, (attrOf e.2).isSome

end

end NumbaCudaMlir.ArgAttrs

/-!
## Whose attributes a parameter gets

The list of attributes is made by flattened positions and filled by source arguments.
So each parameter has its own attributes exactly where every parameter with attributes
is a single value and nothing before it is omitted, empty or a tuple of several values.
-/

namespace NumbaCudaMlir.ArgAttrs

open AbiFlatten

section
variable {L T : Type} {params : List (Param L T)}

/-! ## Positions -/

theorem flatArgStartIndex_succ {i : Nat} {a : Param L T} (h : params[i]? = some a) :
    flatArgStartIndex (argtypes params) (i + 1) = flatArgStartIndex (argtypes params) i + argCount a.argtype := by
  have ha : (argtypes params)[i]? = some a.argtype := by rw [argtypes, List.getElem?_map, h]; rfl
  rw [flatArgStartIndex_eq, flatArgStartIndex_eq, List.take_add_one, ha, List.map_append, List.sum_append]
  simp

theorem flatArgStartIndex_mono {i j : Nat} (h : i ≤ j) :
    flatArgStartIndex (argtypes params) i ≤ flatArgStartIndex (argtypes params) j := by
  rw [flatArgStartIndex_eq, flatArgStartIndex_eq]
  obtain ⟨n, rfl⟩ := Nat.exists_eq_add_of_le h
  rw [List.take_add, List.map_append, List.sum_append]
  omega

theorem flatArgStartIndex_length :
    flatArgStartIndex (argtypes params) params.length = (setupFuncOp (argtypes params)).length := by
  have hlen : params.length = (argtypes params).length := by simp [argtypes]
  rw [flatArgStartIndex_eq, setupFuncOp_length, hlen, List.take_length]

theorem Owns.lt {i : Nat} {a : Param L T} {p : Nat} (h : Owns params i a p) : p < (setupFuncOp (argtypes params)).length := by
  obtain ⟨ha, -, hp⟩ := h
  obtain ⟨hi, -⟩ := List.getElem?_eq_some_iff.mp ha
  rw [← flatArgStartIndex_succ ha] at hp
  rw [← flatArgStartIndex_length]
  exact hp.trans_le (flatArgStartIndex_mono hi)

theorem Owns.index_eq {i j : Nat} {a b : Param L T} {p : Nat} (h : Owns params i a p) (h' : Owns params j b p) : i = j := by
  obtain ⟨ha, hi, hi'⟩ := h
  obtain ⟨hb, hj, hj'⟩ := h'
  rw [← flatArgStartIndex_succ ha] at hi'
  rw [← flatArgStartIndex_succ hb] at hj'
  by_contra hne
  rcases Nat.lt_or_gt_of_ne hne with hlt | hlt
  · have : flatArgStartIndex (argtypes params) (i + 1) ≤ flatArgStartIndex (argtypes params) j := flatArgStartIndex_mono hlt
    omega
  · have : flatArgStartIndex (argtypes params) (j + 1) ≤ flatArgStartIndex (argtypes params) i := flatArgStartIndex_mono hlt
    omega

theorem Owns.param_eq {i j : Nat} {a b : Param L T} {p : Nat} (h : Owns params i a p) (h' : Owns params j b p) : a = b := by
  have ha := h.1
  rw [h.index_eq h', h'.1] at ha
  exact (Option.some.inj ha).symm

/-! ## The list that the lowering fills -/

/-- What an entry makes of the dictionary of its argument. -/
def addEntry (d : DictAttr T) (e : String × AttrValue T) : DictAttr T := ((attrOf e.2).map fun a => d.set e.1 a).getD d

def Known (a : Param L T) : Prop := ∀ e ∈ a.attributes.entries, e.2 ≠ .other

theorem attachAttr_of_lt {i : Nat} {argAttrs : List (DictAttr T)} {d : DictAttr T} {e : String × AttrValue T}
    (he : e.2 ≠ .other) (hd : argAttrs[i]? = some d) :
    attachAttr i argAttrs e = .ok (argAttrs.set i (addEntry d e)) := by
  have hsame : argAttrs.set i d = argAttrs := by
    obtain ⟨hi, rfl⟩ := List.getElem?_eq_some_iff.mp hd
    exact List.set_getElem_self hi
  unfold attachAttr addEntry
  split
  · next h => simp [h, setAttr, hd, attrOf]
  · next h => simp [h, attrOf, hsame]
  · next h => simp [h, setAttr, hd, attrOf]
  · next h => simp [h, setAttr, hd, attrOf]
  · next h => exact absurd h he

theorem attachAttrs_of_lt {i : Nat} {es : List (String × AttrValue T)} (hes : ∀ e ∈ es, e.2 ≠ .other)
    {argAttrs : List (DictAttr T)} {d : DictAttr T} (hd : argAttrs[i]? = some d) :
    attachAttrs i argAttrs es = .ok (argAttrs.set i (es.foldl addEntry d)) := by
  induction es generalizing argAttrs d with
  | nil =>
    obtain ⟨hi, rfl⟩ := List.getElem?_eq_some_iff.mp hd
    rw [attachAttrs, List.foldl_nil, List.set_getElem_self hi]
  | cons e es ih =>
    obtain ⟨hi, -⟩ := List.getElem?_eq_some_iff.mp hd
    rw [attachAttrs, attachAttr_of_lt (hes e List.mem_cons_self) hd]
    refine (ih (fun e he => hes e (List.mem_cons_of_mem _ he)) (d := addEntry d e) ?_).trans ?_
    · rw [List.getElem?_set_self hi]
    · rw [List.set_set, List.foldl_cons]

theorem attachAttrs_of_ge {i : Nat} {es : List (String × AttrValue T)} (hes : ∀ e ∈ es, e.2 ≠ .other)
    {argAttrs : List (DictAttr T)} (hi : argAttrs[i]? = none) :
    (attachAttrs i argAttrs es = .ok argAttrs ∧ ∀ e ∈ es, attrOf e.2 = none) ∨
      ((∃ err, attachAttrs i argAttrs es = .error err) ∧ ∃ e ∈ es, (attrOf e.2).isSome) := by
  induction es with
  | nil => exact .inl ⟨rfl, by simp⟩
  | cons e es ih =>
    have herr (a : Attr T) (h : attachAttr i argAttrs e = setAttr argAttrs i e.1 a) (ha : attrOf e.2 = some a) :
        (∃ err, attachAttrs i argAttrs (e :: es) = .error err) ∧ ∃ e' ∈ e :: es, (attrOf e'.2).isSome :=
      ⟨⟨.indexError, by rw [attachAttrs, h, setAttr, hi]; rfl⟩, e, List.mem_cons_self, by rw [ha]; rfl⟩
    cases hv : e.2 with
    | other => exact absurd hv (hes e List.mem_cons_self)
    | int n => exact .inr (herr (.i64 n) (by rw [attachAttr, hv]) (by rw [hv]; rfl))
    | type ty => exact .inr (herr (.type ty) (by rw [attachAttr, hv]) (by rw [hv]; rfl))
    | bool b =>
      cases b with
      | true => exact .inr (herr .unit (by rw [attachAttr, hv]) (by rw [hv]; rfl))
      | false =>
        have hstep : attachAttrs i argAttrs (e :: es) = attachAttrs i argAttrs es := by
          rw [attachAttrs, attachAttr, hv]; rfl
        rw [hstep]
        rcases ih fun e he => hes e (List.mem_cons_of_mem _ he) with ⟨h, hnone⟩ | ⟨h, e', he', hsome⟩
        · refine .inl ⟨h, fun e' he' => ?_⟩
          rcases List.mem_cons.mp he' with rfl | he'
          · rw [hv]; rfl
          · exact hnone e' he'
        · exact .inr ⟨h, e', List.mem_cons_of_mem _ he', hsome⟩

theorem foldl_addEntry_of_none {es : List (String × AttrValue T)} (h : ∀ e ∈ es, attrOf e.2 = none) (d : DictAttr T) :
    es.foldl addEntry d = d := by
  induction es generalizing d with
  | nil => rfl
  | cons e es ih =>
    rw [List.foldl_cons, addEntry, h e List.mem_cons_self]
    exact ih (fun e he => h e (List.mem_cons_of_mem _ he)) d

/-- The dictionary of the argument with a position's number. -/
def describeAt (params : List (Param L T)) (i : Nat) : DictAttr T :=
  (params[i]?.map fun a => describe a.attributes).getD Dict.empty

theorem attachAll_spec {params : List (Param L T)} (hknown : ∀ a ∈ params, Known a) {i : Nat}
    {argAttrs : List (DictAttr T)} (hempty : ∀ p, i ≤ p → p < argAttrs.length → argAttrs[p]? = some Dict.empty) :
    ((∀ j a, params[j]? = some a → Attributed a → i + j < argAttrs.length) ∧
      ∃ attrs, attachAll i argAttrs params = .ok attrs ∧ attrs.length = argAttrs.length ∧
        (∀ p < i, attrs[p]? = argAttrs[p]?) ∧
        ∀ p, i ≤ p → p < argAttrs.length → attrs[p]? = some (describeAt params (p - i))) ∨
    ((∃ err, attachAll i argAttrs params = .error err) ∧
      ∃ j a, params[j]? = some a ∧ Attributed a ∧ argAttrs.length ≤ i + j) := by
  induction params generalizing i argAttrs with
  | nil => exact .inl ⟨by simp, argAttrs, rfl, rfl, fun _ _ => rfl, by simpa [describeAt] using hempty⟩
  | cons a params ih =>
    have ha := hknown a List.mem_cons_self
    have hrest : ∀ b ∈ params, Known b := fun b hb => hknown b (List.mem_cons_of_mem _ hb)
    by_cases hi : i < argAttrs.length
    · have hone := attachAttrs_of_lt ha (hempty i (Nat.le_refl i) hi)
      rw [attachAll, hone]
      have hempty' : ∀ p, i + 1 ≤ p → p < (argAttrs.set i (describe a.attributes)).length →
          (argAttrs.set i (describe a.attributes))[p]? = some Dict.empty := by
        intro p hp hlt
        rw [List.length_set] at hlt
        rw [List.getElem?_set_ne (by omega)]
        exact hempty p (by omega) hlt
      rcases ih hrest hempty' with ⟨hlt, attrs, hok, hlen, hbelow, habove⟩ | ⟨herr, j, b, hb, hatt, hge⟩
      · rw [List.length_set] at hlt hlen habove
        refine .inl ⟨fun j b hb hatt => ?_, attrs, hok, hlen, fun p hp => ?_, fun p hp hplt => ?_⟩
        · cases j with
          | zero => exact hi
          | succ j => have := hlt j b hb hatt; omega
        · rw [hbelow p (by omega), List.getElem?_set_ne (by omega)]
        · by_cases hpi : p = i
          · subst hpi
            rw [hbelow p (by omega), List.getElem?_set_self hi, Nat.sub_self]
            rfl
          · rw [habove p (by omega) hplt, show p - i = (p - (i + 1)) + 1 by omega]
            rfl
      · rw [List.length_set] at hge
        exact .inr ⟨herr, j + 1, b, hb, hatt, by omega⟩
    · have hnone : argAttrs[i]? = none := List.getElem?_eq_none (by omega)
      rw [attachAll]
      rcases attachAttrs_of_ge ha hnone with ⟨hok, hattrs⟩ | ⟨⟨err, herr⟩, hatt⟩
      · rw [hok]
        have hempty' : ∀ p, i + 1 ≤ p → p < argAttrs.length → argAttrs[p]? = some Dict.empty :=
          fun p hp hlt => by omega
        rcases ih hrest hempty' with
          ⟨hlt, attrs, hok, hlen, hbelow, -⟩ | ⟨herr, j, b, hb, hatt, hge⟩
        · refine .inl ⟨fun j b hb hatt => ?_, attrs, hok, hlen, fun p hp => hbelow p (by omega), fun p hp hlt => by omega⟩
          cases j with
          | zero =>
            obtain rfl : a = b := by simpa using hb
            obtain ⟨e, he, hsome⟩ := hatt
            rw [hattrs e he] at hsome
            exact absurd hsome (by simp)
          | succ j => have := hlt j b hb hatt; omega
        · exact .inr ⟨herr, j + 1, b, hb, hatt, by omega⟩
      · exact .inr ⟨⟨err, by rw [herr]; rfl⟩, 0, a, rfl, hatt, by omega⟩

theorem argAttrs_spec (hknown : ∀ a ∈ params, Known a) :
    ((∀ i a, params[i]? = some a → Attributed a → i < (setupFuncOp (argtypes params)).length) ∧
      ∃ attrs, argAttrs params = .ok attrs ∧ attrs.length = (setupFuncOp (argtypes params)).length ∧
        ∀ p < (setupFuncOp (argtypes params)).length, attrs[p]? = some (describeAt params p)) ∨
    ((∃ err, argAttrs params = .error err) ∧
      ∃ i a, params[i]? = some a ∧ Attributed a ∧ (setupFuncOp (argtypes params)).length ≤ i) := by
  have hempty : ∀ p, 0 ≤ p → p < (List.replicate (setupFuncOp (argtypes params)).length (Dict.empty : DictAttr T)).length →
      (List.replicate (setupFuncOp (argtypes params)).length (Dict.empty : DictAttr T))[p]? = some Dict.empty := by
    intro p _ hp
    rw [List.length_replicate] at hp
    simp [hp]
  simpa [argAttrs] using attachAll_spec hknown hempty

theorem describeAt_of_some {i : Nat} {a : Param L T} (h : params[i]? = some a) :
    describeAt params i = describe a.attributes := by
  rw [describeAt, h]; rfl

theorem set_ne_empty (d : DictAttr T) (k : String) (v : Attr T) : d.set k v ≠ Dict.empty := fun h => by
  have := Dict.get_set_self d k v
  rw [h] at this
  exact absurd this (by simp)

theorem foldl_addEntry_ne_empty (es : List (String × AttrValue T)) {d : DictAttr T} (h : d ≠ Dict.empty) :
    es.foldl addEntry d ≠ Dict.empty := by
  induction es generalizing d with
  | nil => exact h
  | cons e es ih =>
    rw [List.foldl_cons]
    apply ih
    unfold addEntry
    cases attrOf e.2 with
    | none => exact h
    | some a => exact set_ne_empty d e.1 a

theorem describe_ne_empty_iff (a : Param L T) : describe a.attributes ≠ Dict.empty ↔ Attributed a := by
  constructor
  · intro h
    by_contra hatt
    apply h
    apply foldl_addEntry_of_none
    intro e he
    by_contra hne
    exact hatt ⟨e, he, Option.isSome_iff_ne_none.mpr hne⟩
  · rintro ⟨e, he, hsome⟩
    obtain ⟨l, r, hlr⟩ := List.append_of_mem he
    obtain ⟨v, hv⟩ := Option.isSome_iff_exists.mp hsome
    change a.attributes.entries.foldl addEntry Dict.empty ≠ Dict.empty
    rw [hlr, List.foldl_append, List.foldl_cons]
    apply foldl_addEntry_ne_empty
    rw [addEntry, hv]
    exact set_ne_empty _ e.1 v

/-! ## The LLVM parameters -/

theorem expandAttr_eq (d : DictAttr T) (t : MlirType) :
    expandAttr d t = (slots t).map fun s => if s.isPointerOrValue then newArgAttr d else Dict.empty := by
  cases t with
  | memref r => simp [expandAttr, slots, Slot.isPointerOrValue]
  | other => rfl

theorem expandAttrs_eq {attrs : List (DictAttr T)} {types : List MlirType} (h : attrs.length = types.length) (n : Nat)
    {f : Nat → DictAttr T} (hf : ∀ p d, attrs[p]? = some d → f (n + p) = d) :
    expandAttrs attrs types = .ok ((types.zipIdx n).flatMap fun x => (slots x.1).map fun s =>
      if s.isPointerOrValue then newArgAttr (f x.2) else Dict.empty) := by
  induction attrs generalizing types n with
  | nil =>
    obtain rfl := List.eq_nil_of_length_eq_zero h.symm
    rfl
  | cons d attrs ih =>
    cases types with
    | nil => simp at h
    | cons t types =>
      have hrest : ∀ p e, attrs[p]? = some e → f (n + 1 + p) = e := by
        intro p e he
        have := hf (p + 1) e (by simpa using he)
        rwa [show n + (p + 1) = n + 1 + p by omega] at this
      rw [expandAttrs, ih (by simpa using h) (n + 1) hrest, List.zipIdx_cons, List.flatMap_cons, expandAttr_eq,
        ← hf 0 d rfl]
      rfl

theorem fixupNvvmArgAttrs_spec (getArgumentType : L → MlirType) {attrs : List (DictAttr T)}
    (h : attrs.length = (setupFuncOp (argtypes params)).length) :
    ∃ op, fixupNvvmArgAttrs (loweredOp getArgumentType params attrs) = .ok op ∧
      ∀ q, op.attrsOf q = (((llvmParameters (inputs getArgumentType params))[q]?.map fun x =>
        if x.2.isPointerOrValue then newArgAttr (attrs[x.1]?.getD Dict.empty) else Dict.empty).getD Dict.empty) := by
  unfold fixupNvvmArgAttrs
  simp only [loweredOp]
  by_cases hall : (attrs.all fun d => d.entries.isEmpty) = true
  · rw [if_pos hall]
    refine ⟨_, rfl, fun q => ?_⟩
    have hget (p : Nat) : attrs[p]?.getD Dict.empty = Dict.empty := by
      cases hp : attrs[p]? with
      | none => rfl
      | some d =>
        obtain ⟨es, hn⟩ := d
        have := List.all_eq_true.mp hall _ (List.mem_of_getElem? hp)
        obtain rfl : es = [] := by simpa using this
        rfl
    cases hq : (llvmParameters (inputs getArgumentType params))[q]? with
    | none => rfl
    | some x =>
      simp only [hget, Option.map_some, Option.getD_some]
      split <;> rfl
  · rw [if_neg hall, expandAttrs_eq (by simp [inputs, h]) 0 (f := fun p => attrs[p]?.getD Dict.empty)
      (fun p d hd => by rw [Nat.zero_add, hd]; rfl)]
    refine ⟨_, rfl, fun q => ?_⟩
    have hmap : ((inputs getArgumentType params).zipIdx 0).flatMap (fun x => (slots x.1).map fun s =>
        if s.isPointerOrValue then newArgAttr (attrs[x.2]?.getD Dict.empty) else Dict.empty) =
        (llvmParameters (inputs getArgumentType params)).map fun x =>
          if x.2.isPointerOrValue then newArgAttr (attrs[x.1]?.getD Dict.empty) else Dict.empty := by
      rw [llvmParameters, List.map_flatMap]
      simp only [List.map_map]
      rfl
    rw [FuncOp.attrsOf, hmap]
    simp

/-! ## Both steps -/

/-- Every parameter with attributes is one value at the flattened position of its own number. -/
def AttributedAligned (params : List (Param L T)) : Prop :=
  ∀ i a, params[i]? = some a → Attributed a → flatArgStartIndex (argtypes params) i = i ∧ argCount a.argtype = 1

theorem describeAt_of_owns (h : AttributedAligned params) {i p : Nat} {a : Param L T} (ho : Owns params i a p) :
    describeAt params p = describe a.attributes := by
  by_cases hatt : Attributed a
  · obtain ⟨hstart, hcount⟩ := h i a ho.1 hatt
    obtain ⟨ha, hi, hp⟩ := ho
    rw [hstart] at hi
    rw [hstart, hcount] at hp
    obtain rfl : p = i := by omega
    exact describeAt_of_some ha
  · rw [(not_iff_comm.mp (describe_ne_empty_iff a)).mp hatt]
    cases hb : params[p]? with
    | none => rw [describeAt, hb]; rfl
    | some b =>
      rw [describeAt_of_some hb]
      by_contra hne
      have hattb := (describe_ne_empty_iff b).mp hne
      obtain ⟨hstart, hcount⟩ := h p b hb hattb
      have hown : Owns params p b p := ⟨hb, by omega, by omega⟩
      exact hatt (ho.param_eq hown ▸ hattb)

theorem start_eq_of_describes (hleaf : ∀ a ∈ params, Attributed a → argCount a.argtype ≠ 0)
    (h : ∀ i a p, Owns params i a p → describeAt params p = describe a.attributes) {i : Nat} {a : Param L T}
    (ha : params[i]? = some a) (hatt : Attributed a) : flatArgStartIndex (argtypes params) i = i := by
  -- the parameter with the number of the first position has the same attributes
  have hnext : ∀ i a, params[i]? = some a → Attributed a →
      ∃ b, params[flatArgStartIndex (argtypes params) i]? = some b ∧ Attributed b := by
    intro i a ha hatt
    have hcount := hleaf a (List.mem_of_getElem? ha) hatt
    have hd := h i a _ ⟨ha, Nat.le_refl _, by omega⟩
    cases hb : params[flatArgStartIndex (argtypes params) i]? with
    | none =>
      rw [describeAt, hb] at hd
      exact absurd hd.symm ((describe_ne_empty_iff a).mpr hatt)
    | some b =>
      rw [describeAt_of_some hb] at hd
      exact ⟨b, rfl, (describe_ne_empty_iff b).mp (hd ▸ (describe_ne_empty_iff a).mpr hatt)⟩
  have hsucc : ∀ i a, params[i]? = some a → Attributed a →
      flatArgStartIndex (argtypes params) i < flatArgStartIndex (argtypes params) (i + 1) := by
    intro i a ha hatt
    have hcount := hleaf a (List.mem_of_getElem? ha) hatt
    rw [flatArgStartIndex_succ ha]
    omega
  have hge : ∀ i a, params[i]? = some a → Attributed a → i ≤ flatArgStartIndex (argtypes params) i := by
    intro i
    induction i using Nat.strongRecOn with
    | _ i ih =>
      intro a ha hatt
      by_contra hlt
      obtain ⟨b, hb, hattb⟩ := hnext i a ha hatt
      have hback := ih _ (by omega) b hb hattb
      have hstep := hsucc _ b hb hattb
      have hmono : flatArgStartIndex (argtypes params) (flatArgStartIndex (argtypes params) i + 1) ≤
          flatArgStartIndex (argtypes params) i := flatArgStartIndex_mono (by omega)
      omega
  have hle : ∀ n i a, params.length - i = n → params[i]? = some a → Attributed a →
      flatArgStartIndex (argtypes params) i ≤ i := by
    intro n
    induction n using Nat.strongRecOn with
    | _ n ih =>
      intro i a hn ha hatt
      by_contra hlt
      obtain ⟨b, hb, hattb⟩ := hnext i a ha hatt
      obtain ⟨hlen, -⟩ := List.getElem?_eq_some_iff.mp hb
      have hback := ih _ (by omega) _ b rfl hb hattb
      have hstep := hsucc i a ha hatt
      have hmono : flatArgStartIndex (argtypes params) (i + 1) ≤
          flatArgStartIndex (argtypes params) (flatArgStartIndex (argtypes params) i) := flatArgStartIndex_mono (by omega)
      omega
  exact Nat.le_antisymm (hle _ i a rfl ha hatt) (hge i a ha hatt)

theorem attributedAligned_of_describes (hleaf : ∀ a ∈ params, Attributed a → argCount a.argtype ≠ 0)
    (h : ∀ i a p, Owns params i a p → describeAt params p = describe a.attributes) : AttributedAligned params := by
  intro i a ha hatt
  have hstart := start_eq_of_describes hleaf h ha hatt
  refine ⟨hstart, ?_⟩
  by_contra hne
  have hcount := hleaf a (List.mem_of_getElem? ha) hatt
  have hsucc := flatArgStartIndex_succ ha
  -- a second position has the number of a parameter that starts behind it
  have hd := h i a (i + 1) ⟨ha, by omega, by omega⟩
  cases hb : params[i + 1]? with
  | none =>
    rw [describeAt, hb] at hd
    exact absurd hd.symm ((describe_ne_empty_iff a).mpr hatt)
  | some b =>
    rw [describeAt_of_some hb] at hd
    have hattb := (describe_ne_empty_iff b).mp (hd ▸ (describe_ne_empty_iff a).mpr hatt)
    have := start_eq_of_describes hleaf h hb hattb
    omega

variable (getArgumentType : L → MlirType)

theorem attrs_land_iff (hknown : ∀ a ∈ params, Known a) :
    (AttributedAligned params → AttrsLand getArgumentType params) ∧
      ((∀ a ∈ params, Attributed a → argCount a.argtype ≠ 0) → AttrsLand getArgumentType params →
        AttributedAligned params) := by
  constructor
  · intro h
    rcases argAttrs_spec hknown with ⟨-, attrs, hok, hlen, hget⟩ | ⟨-, i, a, ha, hatt, hge⟩
    · obtain ⟨op, hop, hattrs⟩ := fixupNvvmArgAttrs_spec getArgumentType hlen
      have hown : ∀ i a p, Owns params i a p → attrs[p]? = some (describe a.attributes) := fun i a p ho => by
        rw [hget p ho.lt, describeAt_of_owns h ho]
      refine ⟨attrs, op, hok, hop, hown, fun i a p q s hq ho => ?_, fun q hq => ?_⟩
      · rw [hattrs q, hq, Option.map_some, Option.getD_some, hown i a p ho]
        rfl
      · rw [hattrs q, List.getElem?_eq_none hq]
        rfl
    · obtain ⟨hstart, hcount⟩ := h i a ha hatt
      have hown : Owns params i a i := ⟨ha, by omega, by omega⟩
      exact absurd hown.lt (by omega)
  · rintro hleaf ⟨attrs, op, hok, -, hown, -⟩
    rcases argAttrs_spec hknown with ⟨-, attrs', hok', -, hget⟩ | ⟨⟨err, herr⟩, -⟩
    · obtain rfl : attrs = attrs' := Except.ok.inj (hok.symm.trans hok')
      refine attributedAligned_of_describes hleaf fun i a p ho => ?_
      exact Option.some.inj ((hget p ho.lt).symm.trans (hown i a p ho))
    · rw [hok] at herr
      exact absurd herr (by simp)

end

/-- The attributes of a tensor map that is passed by value. -/
def tensorMapAttributes : Dict String (AttrValue String) :=
  (Dict.empty.set "llvm.byval" (.type "CUTensorMapStorage")).set "llvm.align" (.int 128)

def tensorMap : Param Unit String := ⟨.given (.leaf ()), tensorMapAttributes⟩

def pair : Param Unit String := ⟨.given (.uniTuple (.leaf ()) 2), Dict.empty⟩

theorem attrs_land_first :
    (∀ a ∈ [tensorMap, pair], Known a) ∧
      ((AttributedAligned [tensorMap, pair] → AttrsLand (fun _ => .memref 1) [tensorMap, pair]) ∧
        ((∀ a ∈ [tensorMap, pair], Attributed a → argCount a.argtype ≠ 0) →
          AttrsLand (fun _ => .memref 1) [tensorMap, pair] → AttributedAligned [tensorMap, pair])) := by
  have hknown : ∀ a ∈ [tensorMap, pair], Known a := by
    intro a ha
    simp only [List.mem_cons, List.not_mem_nil, or_false] at ha
    obtain rfl | rfl := ha
    · simp [Known, tensorMap, tensorMapAttributes, Dict.mem_set_iff, Dict.empty]
    · simp [Known, pair, Dict.empty]
  exact ⟨hknown, attrs_land_iff (fun _ => .memref 1) hknown⟩

/-- Behind a pair, the tensor map's attributes go to the pair's second element; behind an
omitted parameter, they have no position. -/
theorem attrs_land_fails :
    ¬AttrsLand (fun _ => .other) [pair, tensorMap] ∧
      ¬AttrsLand (fun _ => .other) [⟨.omitted 0, Dict.empty⟩, tensorMap] := by
  constructor
  · rintro ⟨attrs, op, hok, -, hown, -⟩
    have hsecond := hown 0 _ 1 ⟨rfl, by decide, by decide⟩
    have hattrs : (attrs[1]?.map fun d => d.entries) = some [] := by rw [hsecond]; rfl
    have hcode : ((argAttrs [pair, tensorMap]).toOption.bind fun attrs => attrs[1]?.map fun d => d.entries) ≠ some [] := by
      decide
    rw [hok] at hcode
    exact hcode hattrs
  · rintro ⟨attrs, op, hok, -⟩
    have hcode : (argAttrs [⟨.omitted 0, Dict.empty⟩, tensorMap]).toOption = none := rfl
    rw [hok] at hcode
    exact absurd hcode (by simp [Except.toOption])

end NumbaCudaMlir.ArgAttrs
