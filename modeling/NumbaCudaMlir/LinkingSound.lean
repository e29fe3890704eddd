import NumbaCudaMlir.ItaniumManglerSound
import NumbaCudaMlir.Linking
import Mathlib.Logic.Relation

/-!
# Every call finds its specialisation

The names of a module, as one relation between names and what they stand for:
where it is a function, keeping the first definition of a name loses nothing and
each call reaches the body compiled for it.
-/

namespace NumbaCudaMlir.Linking

open Mangler SymbolTable

/-! ## Names apart -/

theorem constantArrayName_inj {k l : Nat} (h : constantArrayName k = constantArrayName l) : k = l :=
  NpDType.toDigits_inj (List.append_cancel_left h)

theorem stringName_inj {k l : Nat} (h : stringName k = stringName l) : k = l :=
  NpDType.toDigits_inj (List.append_cancel_left h)

theorem ne_of_take {a b a' b' : Text} (n : Nat) (ha : a.take n = a') (hb : b.take n = b') (h : a' ≠ b') : a ≠ b := by
  rintro rfl
  exact h (ha.symm.trans hb)

theorem take_constantArrayName (k : Nat) : (constantArrayName k).take 2 = ['c', 'o'] := rfl

theorem take_stringName (k : Nat) : (stringName k).take 20 = "__numba_cuda_mlir_st".toList := rfl

theorem take_two_stringName (k : Nat) : (stringName k).take 2 = ['_', '_'] := rfl

theorem take_symbol (p : Program) (u : Unit) : (p.symbol u).take 2 = ['_', 'Z'] := by
  cases u <;> rfl

theorem constantArrayName_ne_stringName (k l : Nat) : constantArrayName k ≠ stringName l :=
  ne_of_take 2 (take_constantArrayName k) (take_two_stringName l) (by decide)

theorem constantArrayName_ne_errorCodeName (k : Nat) : constantArrayName k ≠ errorCodeName :=
  ne_of_take 2 (take_constantArrayName k) rfl (by decide)

theorem stringName_ne_errorCodeName (k : Nat) : stringName k ≠ errorCodeName :=
  ne_of_take 20 (take_stringName k) rfl (by decide)

theorem symbol_ne_constantArrayName (p : Program) (u : Unit) (k : Nat) : p.symbol u ≠ constantArrayName k :=
  ne_of_take 2 (take_symbol p u) (take_constantArrayName k) (by decide)

theorem symbol_ne_stringName (p : Program) (u : Unit) (k : Nat) : p.symbol u ≠ stringName k :=
  ne_of_take 2 (take_symbol p u) (take_two_stringName k) (by decide)

theorem symbol_ne_errorCodeName (p : Program) (u : Unit) : p.symbol u ≠ errorCodeName :=
  ne_of_take 2 (take_symbol p u) rfl (by decide)

/-! ## Requests and names -/

namespace Program

variable (p : Program)

/-- The compilation an item of `u`'s body asks for. -/
def target (u : Unit) : Item → Option Unit
  | .call fn args kws =>
    (p.foldArgs (p.deviceDispatcher fn) args kws).map fun types => .callee ⟨p.deviceDispatcher fn, types⟩
  | .recursive fn args kws => do
    let argtypes ← p.foldArgs fn args kws
    if argtypes ≠ u.argtypes then
      (p.foldArgs (p.deviceDispatcher fn) args kws).map fun types => .callee ⟨p.deviceDispatcher fn, types⟩
    else none
  | .overload fn args kws => (p.foldArgs fn args kws).map fun types => .callee ⟨fn, types⟩
  | _ => none

def Calls (u v : Unit) : Prop := ∃ item ∈ p.body u, p.target u item = some v

/-- Everything compiled on the way to `u`'s module, `u` included. -/
def Requests : Unit → Unit → Prop := Relation.ReflTransGen p.Calls

def Links (u : Unit) (library : Library) : Prop :=
  ∃ v, p.Requests u v ∧ ∃ fn, Item.library fn ∈ p.body v ∧ fn.library = library

/-- A recursive call with the types of the function it stands in is a call of that function. -/
def CallsItself (u : Unit) : Prop :=
  ∀ fn args kws, Item.recursive fn args kws ∈ p.body u → p.foldArgs fn args kws = some u.argtypes →
    u = .callee ⟨p.deviceDispatcher fn, u.argtypes⟩

/-- Nothing in `u`'s module shares a name with another thing. -/
structure Distinguished (u : Unit) : Prop where
  specializations : ∀ s s', p.Requests u (.callee s) → p.Requests u (.callee s') → s.dispatcher = s'.dispatcher →
    spelledArgs s.argtypes = spelledArgs s'.argtypes → s.argtypes = s'.argtypes
  kernel : ∀ k s, p.Requests u (.kernel k) → p.Requests u (.callee s) → p.symbol (.kernel k) ≠ p.symbol (.callee s)
  recursion : ∀ v, p.Requests u v → p.CallsItself v
  libraries : ∀ a b, p.Links u a → p.Links u b → ∀ op ∈ a.ops, ∀ op' ∈ b.ops, op.name = op'.name → op = op'
  librarySymbols : ∀ a, p.Links u a → ∀ op ∈ a.ops, ∀ v, p.Requests u v → op.name ≠ p.symbol v
  libraryGlobals : ∀ a, p.Links u a → ∀ op ∈ a.ops,
    op.name ≠ errorCodeName ∧ ∀ k, op.name ≠ constantArrayName k ∧ op.name ≠ stringName k

end Program

section
variable {p : Program} {u v w : Unit}

theorem requests_refl : p.Requests u u := Relation.ReflTransGen.refl

theorem requests_trans (h : p.Requests u v) (h' : p.Requests v w) : p.Requests u w := Relation.ReflTransGen.trans h h'

theorem target_callee {item : Item} (h : p.target u item = some v) : ∃ s, v = .callee s := by
  cases item with
  | call fn args kws | overload fn args kws =>
    obtain ⟨types, -, rfl⟩ := Option.map_eq_some_iff.mp h
    exact ⟨_, rfl⟩
  | recursive fn args kws =>
    obtain ⟨argtypes, -, h⟩ := Option.bind_eq_some_iff.mp h
    split at h
    · obtain ⟨types, -, rfl⟩ := Option.map_eq_some_iff.mp h
      exact ⟨_, rfl⟩
    · cases h
  | library fn | constantArray value | string text | setErrorCode => cases h

theorem requests_kernel {k : Spec} (h : p.Requests u (.kernel k)) : u = .kernel k := by
  obtain rfl | ⟨v, -, item, -, ht⟩ := Relation.ReflTransGen.cases_tail h
  · rfl
  · obtain ⟨s, hs⟩ := target_callee ht
    cases hs

theorem Program.Distinguished.of_requests (h : p.Distinguished u) (huv : p.Requests u v) : p.Distinguished v := by
  have hl : ∀ {a}, p.Links v a → p.Links u a := fun ⟨w, hw, hfn⟩ => ⟨w, requests_trans huv hw, hfn⟩
  constructor
  · exact fun s s' hs hs' => h.specializations s s' (requests_trans huv hs) (requests_trans huv hs')
  · exact fun k s hk hs => h.kernel k s (requests_trans huv hk) (requests_trans huv hs)
  · exact fun w hw => h.recursion w (requests_trans huv hw)
  · exact fun a b ha hb => h.libraries a b (hl ha) (hl hb)
  · exact fun a ha op hop w hw => h.librarySymbols a (hl ha) op hop w (requests_trans huv hw)
  · exact fun a ha => h.libraryGlobals a (hl ha)

end

/-- What a name of `u`'s module stands for, by the time the process is in `process`. -/
inductive NamedBy (p : Program) (u : Unit) (process : Process) : Text → Origin → Prop
  | unit {v : Unit} : p.Requests u v → NamedBy p u process (p.symbol v) (.unit v)
  | library {a : Library} {op : LibraryOp} : p.Links u a → op ∈ a.ops → NamedBy p u process op.name (.library op)
  | constantArray {k value : Nat} : process.constantArrays[k]? = some value →
    NamedBy p u process (constantArrayName k) (.constantArray value)
  | string {k : Nat} {text : Text} : process.strings[k]? = some text →
    NamedBy p u process (stringName (k + 1)) (.string text)
  | errorCode : NamedBy p u process errorCodeName .errorCode

theorem symbol_callee_eq_iff (p : Program) (s s' : Spec) :
    p.symbol (.callee s) = p.symbol (.callee s') ↔
      s.dispatcher = s'.dispatcher ∧ spelledArgs s.argtypes = spelledArgs s'.argtypes := by
  refine generateMangledName_eq_iff.trans (and_congr_left fun _ => ⟨partsOf_idSuffix_inj, fun h => ?_⟩)
  rw [h]

theorem symbol_inj {p : Program} {u v w : Unit} (h : p.Distinguished u) (hv : p.Requests u v) (hw : p.Requests u w)
    (heq : p.symbol v = p.symbol w) : v = w := by
  cases v with
  | kernel k =>
    cases w with
    | kernel k' => rw [← requests_kernel hv, ← requests_kernel hw]
    | callee s => exact absurd heq (h.kernel k s hv hw)
  | callee s =>
    cases w with
    | kernel k => exact absurd heq.symm (h.kernel k s hw hv)
    | callee s' =>
      obtain ⟨hd, hargs⟩ := (symbol_callee_eq_iff p s s').mp heq
      have hargtypes := h.specializations s s' hv hw hd hargs
      cases s; cases s'
      simp only at hd hargtypes
      rw [hd, hargtypes]

theorem functional_namedBy {p : Program} {u : Unit} (h : p.Distinguished u) (process : Process) :
    Functional (NamedBy p u process) := by
  have key : ∀ n o n' o', NamedBy p u process n o → NamedBy p u process n' o' → n = n' → o = o' := by
    intro n o n' o' hn hn' heq
    cases hn with
    | unit hv =>
      cases hn' with
      | unit hw => rw [symbol_inj h hv hw heq]
      | library ha hop => exact absurd heq.symm (h.librarySymbols _ ha _ hop _ hv)
      | constantArray hk => exact absurd heq (symbol_ne_constantArrayName p _ _)
      | string hk => exact absurd heq (symbol_ne_stringName p _ _)
      | errorCode => exact absurd heq (symbol_ne_errorCodeName p _)
    | library ha hop =>
      cases hn' with
      | unit hw => exact absurd heq (h.librarySymbols _ ha _ hop _ hw)
      | library hb hop' => rw [h.libraries _ _ ha hb _ hop _ hop' heq]
      | constantArray hk => exact absurd heq ((h.libraryGlobals _ ha _ hop).2 _).1
      | string hk => exact absurd heq ((h.libraryGlobals _ ha _ hop).2 _).2
      | errorCode => exact absurd heq (h.libraryGlobals _ ha _ hop).1
    | constantArray hk =>
      cases hn' with
      | unit hw => exact absurd heq.symm (symbol_ne_constantArrayName p _ _)
      | library hb hop => exact absurd heq.symm ((h.libraryGlobals _ hb _ hop).2 _).1
      | constantArray hl =>
        rw [constantArrayName_inj heq] at hk
        rw [Option.some.inj (hk.symm.trans hl)]
      | string hl => exact absurd heq (constantArrayName_ne_stringName _ _)
      | errorCode => exact absurd heq (constantArrayName_ne_errorCodeName _)
    | string hk =>
      cases hn' with
      | unit hw => exact absurd heq.symm (symbol_ne_stringName p _ _)
      | library hb hop => exact absurd heq.symm ((h.libraryGlobals _ hb _ hop).2 _).2
      | constantArray hl => exact absurd heq.symm (constantArrayName_ne_stringName _ _)
      | string hl =>
        rw [Nat.succ.inj (stringName_inj heq)] at hk
        rw [Option.some.inj (hk.symm.trans hl)]
      | errorCode => exact absurd heq (stringName_ne_errorCodeName _)
    | errorCode =>
      cases hn' with
      | unit hw => exact absurd heq.symm (symbol_ne_errorCodeName p _)
      | library hb hop => exact absurd heq.symm (h.libraryGlobals _ hb _ hop).1
      | constantArray hl => exact absurd heq.symm (constantArrayName_ne_errorCodeName _)
      | string hl => exact absurd heq.symm (stringName_ne_errorCodeName _)
      | errorCode => rfl
  exact fun n o o' ho ho' => key n o n o' ho ho' rfl

/-! ## One compilation -/

/-- A process goes on: what had a number keeps it. -/
structure Process.Le (st st' : Process) : Prop where
  constantArrays : st.constantArrays <+: st'.constantArrays
  strings : st.strings <+: st'.strings

theorem Process.Le.refl (st : Process) : st.Le st := ⟨List.prefix_rfl, List.prefix_rfl⟩

theorem Process.Le.trans {st st' st'' : Process} (h : st.Le st') (h' : st'.Le st'') : st.Le st'' :=
  ⟨h.constantArrays.trans h'.constantArrays, h.strings.trans h'.strings⟩

theorem getElem?_of_extends {α : Type} {l l' : List α} (h : l <+: l') {k : Nat} {a : α} (hk : l[k]? = some a) :
    l'[k]? = some a := by
  obtain ⟨t, rfl⟩ := h
  rw [List.getElem?_append_left (List.getElem?_eq_some_iff.mp hk).1, hk]

theorem NamedBy.mono {p : Program} {u v : Unit} {st st' : Process} (hle : st.Le st') (huv : p.Requests u v) {n : Text}
    {o : Origin} (h : NamedBy p v st n o) : NamedBy p u st' n o := by
  cases h with
  | unit hw => exact .unit (requests_trans huv hw)
  | library ha hop =>
    obtain ⟨w, hw, hfn⟩ := ha
    exact .library ⟨w, requests_trans huv hw, hfn⟩ hop
  | constantArray hk => exact .constantArray (getElem?_of_extends hle.constantArrays hk)
  | string hk => exact .string (getElem?_of_extends hle.strings hk)
  | errorCode => exact .errorCode

/-- A module in which every name stands for one thing and every skip was of what is there. -/
structure AssembledOk (p : Program) (u : Unit) (st : Process) (m : Assembled) : Prop where
  agrees : Agrees (NamedBy p u st) m.ops
  skips : ∀ s ∈ m.skips, s.1 = s.2
  own : p.symbol u ∈ names m.ops

theorem AssembledOk.mono {p : Program} {u : Unit} {st st' : Process} {m : Assembled} (hle : st.Le st')
    (h : AssembledOk p u st m) : AssembledOk p u st' m :=
  ⟨h.agrees.mono fun _ _ hn => hn.mono hle requests_refl, h.skips, h.own⟩

def ProcessOk (p : Program) (st : Process) : Prop :=
  ∀ s m, st.overloads.get s = some m → p.Distinguished (.callee s) → AssembledOk p (.callee s) st m

theorem ProcessOk.of_le {p : Program} {st st' : Process} (h : ProcessOk p st) (hle : st.Le st')
    (heq : st'.overloads = st.overloads) : ProcessOk p st' :=
  fun s m hs hd => (h s m (heq ▸ hs) hd).mono hle

def CompileOk (p : Program) (compile : Program.Compile) : Prop :=
  ∀ st u st' m, compile st u = some (st', m) → ProcessOk p st →
    st.Le st' ∧ ProcessOk p st' ∧ (p.Distinguished u → AssembledOk p u st' m)

/-- The invariant of a lowering of `u` begun in `st`. -/
structure LoweringOk (p : Program) (u : Unit) (st : Process) (L : Lowering) : Prop where
  le : st.Le L.process
  process : ProcessOk p L.process
  own : L.own.name = p.symbol u
  agrees : p.Distinguished u → Agrees (NamedBy p u L.process) L.module
  skips : p.Distinguished u → ∀ s ∈ L.skips, s.1 = s.2
  errorCode : errorCodeName ∈ names L.module
  constantArrays : ∀ e ∈ L.constantArrayGlobals, NamedBy p u L.process e.2 (.constantArray e.1) ∧ e.2 ∈ names L.module

section
variable {p : Program} {u : Unit} {st : Process} {L : Lowering}

@[simp] theorem names_module_use (L : Lowering) (n : Text) (o : Origin) : names (L.use n o).module = names L.module := rfl

theorem names_module_link (L : Lowering) (ops : List Op) {n : Text} :
    n ∈ names (L.link ops).module ↔ n ∈ names L.module ∨ n ∈ names ops := by
  have h : names (L.link ops).module = names L.module ++ names (linkInto L.module ops).1 := names_append L.module _
  rw [h, List.mem_append, mem_names_linkInto]

theorem LoweringOk.use (h : LoweringOk p u st L) {n : Text} {o : Origin}
    (hn : p.Distinguished u → NamedBy p u L.process n o ∧ n ∈ names L.module) : LoweringOk p u st (L.use n o) :=
  { le := h.le
    process := h.process
    own := h.own
    agrees := fun hd => (h.agrees hd).use (hn hd).1 (hn hd).2
    skips := h.skips
    errorCode := h.errorCode
    constantArrays := h.constantArrays }

theorem LoweringOk.link (h : LoweringOk p u st L) {ops : List Op}
    (hops : p.Distinguished u → (∀ d ∈ ops, NamedBy p u L.process d.name d.origin) ∧
      ∀ d ∈ ops, ∀ r ∈ d.refs, NamedBy p u L.process r.1 r.2 ∧ r.1 ∈ names ops) : LoweringOk p u st (L.link ops) :=
  { le := h.le
    process := h.process
    own := h.own
    agrees := fun hd => (h.agrees hd).link (hops hd).1 (hops hd).2
    skips := by
      intro hd s hs
      obtain hs | hs := List.mem_append.mp hs
      · exact h.skips hd s hs
      · exact skips_of_functional (functional_namedBy hd L.process) (h.agrees hd).definitions (hops hd).1 s hs
    errorCode := (names_module_link L ops).mpr (.inl h.errorCode)
    constantArrays := fun e he =>
      ⟨(h.constantArrays e he).1, (names_module_link L ops).mpr (.inl (h.constantArrays e he).2)⟩ }

theorem LoweringOk.advance (h : LoweringOk p u st L) {st' : Process} (hle : L.process.Le st') (hst' : ProcessOk p st') :
    LoweringOk p u st { L with process := st' } :=
  { le := h.le.trans hle
    process := hst'
    own := h.own
    agrees := fun hd => (h.agrees hd).mono fun _ _ hn => hn.mono hle requests_refl
    skips := h.skips
    errorCode := h.errorCode
    constantArrays := fun e he => ⟨(h.constantArrays e he).1.mono hle requests_refl, (h.constantArrays e he).2⟩ }

theorem LoweringOk.skip (h : LoweringOk p u st L) {skips : List (Origin × Origin)}
    (hskips : p.Distinguished u → ∀ s ∈ skips, s.1 = s.2) : LoweringOk p u st { L with skips := L.skips ++ skips } where
  le := h.le
  process := h.process
  own := h.own
  agrees := h.agrees
  skips := by
    intro hd s hs
    obtain hs | hs := List.mem_append.mp hs
    · exact h.skips hd s hs
    · exact hskips hd s hs
  errorCode := h.errorCode
  constantArrays := h.constantArrays

theorem LoweringOk.global (h : LoweringOk p u st L) {d : Op} (hfresh : p.Distinguished u → d.name ∉ names L.module)
    (hd : NamedBy p u L.process d.name d.origin) (hrefs : d.refs = []) :
    LoweringOk p u st { L with ops := d :: L.ops } := by
  have hnames : ∀ n, n ∈ names (L.own :: d :: L.ops) ↔ n = d.name ∨ n ∈ names L.module := by
    intro n
    simp only [Lowering.module, names_cons, List.mem_cons]
    tauto
  have hperm : (d :: L.module).Perm (L.own :: d :: L.ops) := List.Perm.swap _ _ _
  exact
    { le := h.le
      process := h.process
      own := h.own
      agrees := fun hdist => ((h.agrees hdist).cons (hfresh hdist) hd (by simp [hrefs])).perm hperm
      skips := h.skips
      errorCode := (hnames _).mpr (.inr h.errorCode)
      constantArrays := fun e he => ⟨(h.constantArrays e he).1, (hnames _).mpr (.inr (h.constantArrays e he).2)⟩ }

theorem LoweringOk.linkCallee (h : LoweringOk p u st L) {s : Spec} (hs : p.Requests u (.callee s)) {st' : Process}
    (hle : L.process.Le st') (hst' : ProcessOk p st') {m : Assembled}
    (hm : p.Distinguished (.callee s) → AssembledOk p (.callee s) st' m) :
    LoweringOk p u st (L.linkCallee st' m (p.symbol (.callee s)) (.unit (.callee s))) := by
  have hm' : p.Distinguished u → AssembledOk p (.callee s) st' m := fun hd => hm (hd.of_requests hs)
  have hadv := (h.advance hle hst').skip fun hd => (hm' hd).skips
  have hagrees := fun hd => (hm' hd).agrees.mono fun n o hn => hn.mono (Process.Le.refl st') hs
  have hlink := hadv.link fun hd => ⟨(hagrees hd).definitions, (hagrees hd).refs⟩
  exact hlink.use fun hd => ⟨.unit hs, (names_module_link _ _).mpr (.inr (hm' hd).own)⟩

theorem compileDeviceCallee_ok {compile : Program.Compile} (hc : CompileOk p compile) {s : Spec} {st' : Process}
    {m : Assembled} (h : Program.compileDeviceCallee compile st s = some (st', m)) (hst : ProcessOk p st) :
    st.Le st' ∧ ProcessOk p st' ∧ (p.Distinguished (.callee s) → AssembledOk p (.callee s) st' m) := by
  rw [Program.compileDeviceCallee] at h
  split at h
  · next m' hget =>
    cases h
    exact ⟨Process.Le.refl st, hst, hst s m hget⟩
  · obtain ⟨⟨st1, m1⟩, h1, h⟩ := Option.bind_eq_some_iff.mp h
    cases h
    obtain ⟨hle, hst1, hm⟩ := hc st (.callee s) st1 m h1 hst
    have hle1 : st1.Le { st1 with overloads := st1.overloads.set s m } := ⟨List.prefix_rfl, List.prefix_rfl⟩
    refine ⟨hle.trans hle1, ?_, fun hd => (hm hd).mono hle1⟩
    intro s' m' hget hd
    simp only [Dict.get_set] at hget
    split at hget
    · next heq =>
      cases hget
      subst heq
      exact (hm hd).mono hle1
    · exact (hst1 s' m' hget hd).mono hle1

/-! ## One item -/

theorem lowerArrayLiteral_ok (h : LoweringOk p u st L) (value : Nat) : LoweringOk p u st (L.lowerArrayLiteral value) := by
  rw [Lowering.lowerArrayLiteral]
  split
  · next name hname =>
    obtain ⟨l, l', hl, -⟩ := List.lookup_eq_some_iff.mp hname
    exact h.use fun _ => h.constantArrays (value, name) (by simp [hl])
  · let k := L.process.constantArrays.length
    let st' : Process := { L.process with constantArrays := L.process.constantArrays ++ [value] }
    have hle : L.process.Le st' := ⟨List.prefix_append _ _, List.prefix_rfl⟩
    have hnew : NamedBy p u st' (constantArrayName k) (.constantArray value) := by
      refine .constantArray ?_
      simp [st', k]
    -- a name the module has is an older one, and only an older number could make it this one
    have hfresh : p.Distinguished u → constantArrayName k ∉ names L.module := by
      intro hd hmem
      obtain ⟨o, ho⟩ := (h.agrees hd).named_of_mem hmem
      have heq := functional_namedBy hd st' _ _ _ (ho.mono hle requests_refl) hnew
      subst heq
      generalize hname : constantArrayName k = name at ho
      cases ho with
      | constantArray hl =>
        have hlt := (List.getElem?_eq_some_iff.mp hl).1
        rw [← constantArrayName_inj hname] at hlt
        exact Nat.lt_irrefl _ hlt
    have hglobal := (h.advance hle (h.process.of_le hle rfl)).global (d := ⟨constantArrayName k, .constantArray value, []⟩) hfresh hnew rfl
    have hown : constantArrayName k ∈
        names (L.own :: ⟨constantArrayName k, .constantArray value, []⟩ :: L.ops) := by simp
    refine LoweringOk.use ?_ fun _ => ⟨hnew, hown⟩
    refine { hglobal with constantArrays := ?_ }
    intro e he
    obtain rfl | he := List.mem_cons.mp he
    · exact ⟨hnew, hown⟩
    · exact hglobal.constantArrays e he

theorem materializeString_ok (h : LoweringOk p u st L) (text : Text) : LoweringOk p u st (L.materializeString text) := by
  let k := L.process.strings.length
  let st' : Process := { L.process with strings := L.process.strings ++ [text] }
  have hle : L.process.Le st' := ⟨List.prefix_rfl, List.prefix_append _ _⟩
  have hnew : NamedBy p u st' (stringName (k + 1)) (.string text) := by
    refine .string ?_
    simp [st', k]
  have hfresh : p.Distinguished u → stringName (k + 1) ∉ names L.module := by
    intro hd hmem
    obtain ⟨o, ho⟩ := (h.agrees hd).named_of_mem hmem
    have heq := functional_namedBy hd st' _ _ _ (ho.mono hle requests_refl) hnew
    subst heq
    generalize hname : stringName (k + 1) = name at ho
    cases ho with
    | string hl =>
      have hlt := (List.getElem?_eq_some_iff.mp hl).1
      rw [← Nat.succ.inj (stringName_inj hname)] at hlt
      exact Nat.lt_irrefl _ hlt
  have hglobal := (h.advance hle (h.process.of_le hle rfl)).global (d := ⟨stringName (k + 1), .string text, []⟩) hfresh hnew rfl
  have hown : stringName (k + 1) ∈ names (L.own :: ⟨stringName (k + 1), .string text, []⟩ :: L.ops) := by simp
  refine LoweringOk.use ?_ fun _ => ⟨hnew, hown⟩
  exact hglobal

theorem library_ops (library : Library) (hl : p.Links u library) :
    (∀ d ∈ library.linkableOps, NamedBy p u st d.name d.origin) ∧
      ∀ d ∈ library.linkableOps, ∀ r ∈ d.refs, NamedBy p u st r.1 r.2 ∧ r.1 ∈ names library.linkableOps := by
  have hmem : ∀ d ∈ library.linkableOps, ∃ op ∈ library.ops, op.definition library = d := fun d hd => List.mem_map.mp hd
  constructor
  · intro d hd
    obtain ⟨op, hop, rfl⟩ := hmem d hd
    exact .library hl hop
  · intro d hd r hr
    obtain ⟨op, hop, rfl⟩ := hmem d hd
    obtain ⟨n, -, hn⟩ := List.mem_filterMap.mp hr
    obtain ⟨e, he, rfl⟩ := Option.map_eq_some_iff.mp hn
    have hname : e.name = n := by simpa using List.find?_some he
    have hmem := List.mem_of_find?_eq_some he
    refine ⟨hname ▸ .library hl hmem, ?_⟩
    exact mem_names.mpr ⟨e.definition library, List.mem_map.mpr ⟨e, hmem, rfl⟩, hname⟩

theorem lowerLibraryCall_ok (h : LoweringOk p u st L) {fn : LibraryFunction} (hfn : Item.library fn ∈ p.body u)
    {L' : Lowering} (hL : p.lowerLibraryCall L fn = some L') : LoweringOk p u st L' := by
  have hlinks : p.Links u fn.library := ⟨u, requests_refl, fn, hfn, rfl⟩
  rw [Program.lowerLibraryCall] at hL
  obtain ⟨callee, hcallee, hL⟩ := Option.bind_eq_some_iff.mp hL
  cases hL
  have hname : callee.name = fn.op.name := by
    have := List.find?_some hcallee
    simp only [Bool.decide_and, Bool.and_eq_true, decide_eq_true_eq] at this
    exact this.1
  have hmem := List.mem_of_find?_eq_some hcallee
  have hlinked : LoweringOk p u st (Program.linkExternalMlirLibrary L fn.library) := by
    rw [Program.linkExternalMlirLibrary]
    split
    · exact h
    · have hseen : LoweringOk p u st { L with seenLibraries := fn.library :: L.seenLibraries } := { h with }
      exact hseen.link fun _ => library_ops fn.library hlinks
  exact hlinked.use fun _ => ⟨hname ▸ .library hlinks fn.mem, mem_names.mpr ⟨callee, hmem, rfl⟩⟩

variable {compile : Program.Compile}

theorem buildUserDefinedFunctionCall_ok (hc : CompileOk p compile) (h : LoweringOk p u st L) {fn : Nat}
    {args : List MangledType} {kws : List (Text × MangledType)}
    (hreq : ∀ types, p.foldArgs (p.deviceDispatcher fn) args kws = some types →
      p.Requests u (.callee ⟨p.deviceDispatcher fn, types⟩)) {L' : Lowering}
    (hL : p.buildUserDefinedFunctionCall compile L fn args kws = some L') : LoweringOk p u st L' := by
  obtain ⟨types, htypes, hL⟩ := Option.bind_eq_some_iff.mp hL
  obtain ⟨⟨st', m⟩, hm, hL⟩ := Option.bind_eq_some_iff.mp hL
  cases hL
  obtain ⟨hle, hst', hm⟩ := compileDeviceCallee_ok hc hm h.process
  exact h.linkCallee (hreq types htypes) hle hst' hm

theorem lowerItem_ok (hc : CompileOk p compile) (h : LoweringOk p u st L) {item : Item} (hitem : item ∈ p.body u)
    {L' : Lowering} (hL : p.lowerItem compile u L item = some L') : LoweringOk p u st L' := by
  have hreq : ∀ v, p.target u item = some v → p.Requests u v := fun v hv =>
    Relation.ReflTransGen.single ⟨item, hitem, hv⟩
  cases item with
  | call fn args kws =>
    exact buildUserDefinedFunctionCall_ok hc h (fun types ht => hreq _ (by simp [Program.target, ht])) hL
  | recursive fn args kws =>
    obtain ⟨argtypes, hargtypes, hL⟩ := Option.bind_eq_some_iff.mp hL
    split at hL
    · next hne =>
      exact buildUserDefinedFunctionCall_ok hc h
        (fun types ht => hreq _ (by simp [Program.target, hargtypes, hne, ht])) hL
    · next heq =>
      cases hL
      rw [not_not.mp heq] at hargtypes ⊢
      refine h.use fun hd => ?_
      have hself := hd.recursion u requests_refl fn args kws hitem hargtypes
      refine ⟨?_, by simp [Lowering.module]⟩
      rw [← hself, h.own]
      exact .unit requests_refl
  | overload fn args kws =>
    obtain ⟨types, htypes, hL⟩ := Option.bind_eq_some_iff.mp hL
    obtain ⟨⟨st', m⟩, hm, hL⟩ := Option.bind_eq_some_iff.mp hL
    cases hL
    obtain ⟨hle, hst', hm⟩ := hc _ _ _ _ hm h.process
    exact h.linkCallee (hreq _ (by simp [Program.target, htypes])) hle hst' hm
  | library fn => exact lowerLibraryCall_ok h hitem hL
  | constantArray value =>
    cases hL
    exact lowerArrayLiteral_ok h value
  | string text =>
    cases hL
    exact materializeString_ok h text
  | setErrorCode =>
    cases hL
    exact h.use fun _ => ⟨.errorCode, h.errorCode⟩

theorem foldlM_ok (hc : CompileOk p compile) {items : List Item} (hitems : ∀ item ∈ items, item ∈ p.body u)
    (h : LoweringOk p u st L) {L' : Lowering} (hL : items.foldlM (p.lowerItem compile u) L = some L') :
    LoweringOk p u st L' := by
  induction items generalizing L with
  | nil =>
    cases hL
    exact h
  | cons item items ih =>
    rw [List.foldlM_cons] at hL
    obtain ⟨L1, h1, hL⟩ := Option.bind_eq_some_iff.mp hL
    exact ih (fun i hi => hitems i (by simp [hi])) (lowerItem_ok hc h (hitems item (by simp)) h1) hL

end

/-! ## Whole runs -/

theorem startLowering_ok (p : Program) (u : Unit) {st : Process} (hst : ProcessOk p st) :
    LoweringOk p u st (p.startLowering st u) := by
  have hne := symbol_ne_errorCodeName p u
  refine ⟨Process.Le.refl st, hst, rfl, fun _ => ?_, by simp [Program.startLowering], ?_, by simp [Program.startLowering]⟩
  · refine ⟨?_, ?_, ?_⟩
    · simp [Lowering.module, Program.startLowering, errorCodeOp, hne]
    · simp only [Lowering.module, Program.startLowering, List.mem_cons, List.not_mem_nil, or_false, forall_eq_or_imp,
        forall_eq]
      exact ⟨.unit requests_refl, .errorCode⟩
    · simp [Lowering.module, Program.startLowering, errorCodeOp]
  · simp [Lowering.module, Program.startLowering, errorCodeOp]

theorem lowerFunction_ok {p : Program} {compile : Program.Compile} (hc : CompileOk p compile) :
    CompileOk p (p.lowerFunction compile) := by
  intro st u st' m h hst
  obtain ⟨L, hL, h⟩ := Option.bind_eq_some_iff.mp h
  cases h
  have hok := foldlM_ok hc (fun _ h => h) (startLowering_ok p u hst) hL
  exact ⟨hok.le, hok.process, fun hd => ⟨hok.agrees hd, hok.skips hd, by simp [Lowering.module, hok.own]⟩⟩

theorem compile_ok (p : Program) (fuel : Nat) : CompileOk p (p.compile fuel) := by
  induction fuel with
  | zero => exact fun st u st' m h => by cases h
  | succ fuel ih => exact lowerFunction_ok ih

theorem reachable_ok {p : Program} {st : Process} (h : p.Reachable st) : ProcessOk p st := by
  induction h with
  | init => exact fun s m hs => by cases hs
  | compile _ hm ih => exact (compile_ok p _ _ _ _ _ hm ih).2.1
  | callee _ hm ih => exact (compileDeviceCallee_ok (compile_ok p _) hm ih).2.1
  | numbers arrays texts _ ih => exact ih.of_le ⟨List.prefix_append _ _, List.prefix_append _ _⟩ rfl
  | @drop process s _ ih =>
    intro s' m hs hd
    simp only [Dict.get_erase] at hs
    split at hs
    · cases hs
    · have hle : process.Le { process with overloads := process.overloads.erase s } :=
        ⟨List.prefix_rfl, List.prefix_rfl⟩
      exact (ih s' m hs hd).mono hle

/-- What is expected of the module assembled for `u`. -/
structure RunsSpecializations (p : Program) (u : Unit) (m : Assembled) : Prop where
  namesApart : ∀ s s', p.Requests u (.callee s) → p.Requests u (.callee s') → s ≠ s' →
    p.symbol (.callee s) ≠ p.symbol (.callee s')
  skips : ∀ s ∈ m.skips, s.1 = s.2
  calls : SymbolTable.Sound m.ops

theorem assembled_runsSpecializations {p : Program} {st st' : Process} {fuel : Nat} {u : Unit} {m : Assembled}
    (hst : p.Reachable st) (hm : p.compile fuel st u = some (st', m)) (hd : p.Distinguished u) :
    RunsSpecializations p u m := by
  obtain ⟨-, -, hok⟩ := compile_ok p fuel st u st' m hm (reachable_ok hst)
  refine ⟨fun s s' hs hs' hne heq => ?_, (hok hd).skips, (hok hd).agrees.sound (functional_namedBy hd st')⟩
  have h := symbol_inj hd hs hs' heq
  cases h
  exact hne rfl

/-- Two specialisations share a symbol exactly where they are of one dispatcher and the types
passed are spelled alike. In a module with no such pair, and with no other thing under two
meanings, every call reaches the body compiled for it. -/
theorem calls_run_their_specialization (p : Program) :
    (∀ s s' : Spec, p.symbol (.callee s) = p.symbol (.callee s') ↔
      s.dispatcher = s'.dispatcher ∧ spelledArgs s.argtypes = spelledArgs s'.argtypes) ∧
    ∀ st, p.Reachable st → ∀ fuel k st' m, p.compile fuel st (.kernel k) = some (st', m) →
      p.Distinguished (.kernel k) → RunsSpecializations p (.kernel k) m :=
  ⟨symbol_callee_eq_iff p, fun _ hst _ _ _ _ hm hd => assembled_runsSpecializations hst hm hd⟩

/-! ## One function called in several ways -/

theorem requests_mem {p : Program} {units : List Unit} {u v : Unit} (hu : u ∈ units)
    (hstep : ∀ v ∈ units, ∀ item ∈ p.body v, ∀ w ∈ p.target v item, w ∈ units) (h : p.Requests u v) : v ∈ units := by
  induction h with
  | refl => exact hu
  | tail _ hc ih =>
    obtain ⟨item, hitem, ht⟩ := hc
    exact hstep _ ih item hitem _ ht

/-- A kernel, and the function `f(x=0, y=0)` it calls. -/
def callsProgram (calls : List Item) : Program where
  qualname _ := "f".toList
  kernelQualname _ := "kernel".toList
  signature _ := ["x", "y"].map fun name => ⟨name.toList, .positionalOrKeyword, some "omitted(default=0)".toList⟩
  deviceDispatcher fn := fn
  body
    | .kernel _ => calls
    | .callee _ => [.setErrorCode]
  functionType _ := []

def int64 : MangledType := .builtin .int64

def float64 : MangledType := .builtin .float64

/-- `f(5)` and `f(5.0)`. -/
def twoTypes : Program := callsProgram [.call 1 [int64] [], .call 1 [float64] []]

/-- `f(5)` and `f(y=5)`. -/
def twoDefaults : Program := callsProgram [.call 1 [int64] [], .call 1 [] [("y".toList, int64)]]

def twoTypesUnits : List Unit :=
  [.kernel ⟨2, []⟩, .callee ⟨1, [int64, .omitted "omitted(default=0)".toList]⟩,
    .callee ⟨1, [float64, .omitted "omitted(default=0)".toList]⟩]

theorem mem_twoTypes_body {v : Unit} {item : Item} (h : item ∈ twoTypes.body v) :
    item = .setErrorCode ∨ item = .call 1 [int64] [] ∨ item = .call 1 [float64] [] := by
  cases v with
  | kernel k =>
    obtain rfl | h := List.mem_cons.mp h
    · exact .inr (.inl rfl)
    · exact .inr (.inr (List.mem_singleton.mp h))
  | callee s => exact .inl (List.mem_singleton.mp h)

theorem requests_twoTypes {v : Unit} (h : twoTypes.Requests (.kernel ⟨2, []⟩) v) : v ∈ twoTypesUnits := by
  refine requests_mem (by decide) (fun v _ item hitem => ?_) h
  have hcall : ∀ item ∈ [Item.call 1 [int64] [], .call 1 [float64] []],
      ∀ w ∈ twoTypes.target (.kernel ⟨2, []⟩) item, w ∈ twoTypesUnits := by decide
  obtain rfl | rfl | rfl := mem_twoTypes_body hitem
  · exact fun w hw => by cases hw
  · exact hcall _ (List.mem_cons_self)
  · exact hcall _ (List.mem_cons_of_mem _ (List.mem_singleton.mpr rfl))

theorem twoTypes_distinguished : twoTypes.Distinguished (.kernel ⟨2, []⟩) := by
  have hsymbols : ∀ v ∈ twoTypesUnits, ∀ w ∈ twoTypesUnits, twoTypes.symbol v = twoTypes.symbol w → v = w := by decide
  have hlinks : ∀ {a}, ¬twoTypes.Links (.kernel ⟨2, []⟩) a := by
    rintro a ⟨v, -, fn, hfn, -⟩
    obtain h | h | h := mem_twoTypes_body hfn <;> cases h
  constructor
  · intro s s' hs hs' hd hargs
    have h := hsymbols _ (requests_twoTypes hs) _ (requests_twoTypes hs') ((symbol_callee_eq_iff _ s s').mpr ⟨hd, hargs⟩)
    cases h
    rfl
  · intro k s hk hs heq
    have h := hsymbols _ (requests_twoTypes hk) _ (requests_twoTypes hs) heq
    cases h
  · intro v _ fn args kws hitem
    obtain h | h | h := mem_twoTypes_body hitem <;> cases h
  · exact fun a b ha => absurd ha hlinks
  · exact fun a ha => absurd ha hlinks
  · exact fun a ha => absurd ha hlinks

theorem calls_run_their_specialization_two_types :
    ∃ st' m, twoTypes.compile 2 .init (.kernel ⟨2, []⟩) = some (st', m) ∧
      RunsSpecializations twoTypes (.kernel ⟨2, []⟩) m := by
  have hsome : (twoTypes.compile 2 .init (.kernel ⟨2, []⟩)).isSome := by decide
  obtain ⟨⟨st', m⟩, hm⟩ := Option.isSome_iff_exists.mp hsome
  exact ⟨st', m, hm, (calls_run_their_specialization twoTypes).2 _ .init 2 _ st' m hm twoTypes_distinguished⟩

/-- `f(5)` and `f(y=5)` are compiled apart and named alike: the second call runs the first body. -/
theorem second_default_runs_first :
    ¬∀ (p : Program) (st : Process), p.Reachable st → ∀ fuel k st' m, p.compile fuel st (.kernel k) = some (st', m) →
      RunsSpecializations p (.kernel k) m := by
  intro h
  have hrun : ((twoDefaults.compile 2 .init (.kernel ⟨2, []⟩)).map fun r =>
      decide (∀ d ∈ r.2.ops, ∀ ref ∈ d.refs, ∃ e ∈ r.2.ops, e.name = ref.1 ∧ e.origin = ref.2)) = some false := by decide
  obtain ⟨⟨st', m⟩, hm, hf⟩ := Option.map_eq_some_iff.mp hrun
  exact absurd (h twoDefaults .init .init 2 _ st' m hm).calls.resolves (of_decide_eq_false hf)

end NumbaCudaMlir.Linking
