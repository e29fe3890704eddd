import NumbaCudaMlir.MachineInt

/-!
# printf

The bytes that a call of C's `printf` prints, for the format strings of plain
text, of integers and of strings.
-/

namespace Printf

open MachineInt

abbrev Byte := BitVec 8

/-! ## UTF-8 -/

def utf8 (c : Nat) : List Byte :=
  if c < 0x80 then [BitVec.ofNat 8 c]
  else if c < 0x800 then [BitVec.ofNat 8 (0xC0 + c / 0x40), BitVec.ofNat 8 (0x80 + c % 0x40)]
  else if c < 0x10000 then
    [BitVec.ofNat 8 (0xE0 + c / 0x1000), BitVec.ofNat 8 (0x80 + c / 0x40 % 0x40), BitVec.ofNat 8 (0x80 + c % 0x40)]
  else
    [BitVec.ofNat 8 (0xF0 + c / 0x40000), BitVec.ofNat 8 (0x80 + c / 0x1000 % 0x40), BitVec.ofNat 8 (0x80 + c / 0x40 % 0x40),
      BitVec.ofNat 8 (0x80 + c % 0x40)]

def encode (s : List Char) : List Byte := s.flatMap fun c => utf8 c.toNat

def decimal (n : Int) : List Byte := encode (toString n).toList

/-- The bytes before the first NUL. -/
def cString (bytes : List Byte) : List Byte := bytes.takeWhile (· != 0)

/-! ## Calls -/

inductive Conversion where
  | d | ld | lld | s
  deriving DecidableEq, Repr

def percent : Byte := 0x25

/-- The conversion as it stands in a format string. -/
def Conversion.spec : Conversion → List Byte
  | d => [percent, 0x64]
  | ld => [percent, 0x6c, 0x64]
  | lld => [percent, 0x6c, 0x6c, 0x64]
  | s => [percent, 0x73]

inductive Arg where
  | integer (ty : IntType) (x : BitVec ty.bits)
  | pointer (bytes : List Byte)

/-- An integer of another width, or one that the signed type does not have, is undefined. -/
def Conversion.read : Conversion → Arg → Option (List Byte)
  | d, .integer ty x => if ty.bits = 32 ∧ InRange true 32 (value ty.signed x) then some (decimal (value ty.signed x)) else none
  | ld, .integer ty x | lld, .integer ty x =>
    if ty.bits = 64 ∧ InRange true 64 (value ty.signed x) then some (decimal (value ty.signed x)) else none
  | s, .pointer bytes => some (cString bytes)
  | s, .integer .. | d, .pointer _ | ld, .pointer _ | lld, .pointer _ => none

/-- The text of the first argument, then what `rest` prints of the others. -/
def Conversion.apply (c : Conversion) (rest : List Arg → Option (List Byte)) : List Arg → Option (List Byte)
  | [] => none
  | arg :: args => do
    let text ← c.read arg
    let more ← rest args
    some (text ++ more)

/-- Arguments that are left over are ignored. Of the other directives nothing is said. -/
def run : List Byte → List Arg → Option (List Byte)
  | [], _ => some []
  | 0x25#8 :: 0x25#8 :: fmt, args => (run fmt args).map (percent :: ·)
  | 0x25#8 :: 0x64#8 :: fmt, args => Conversion.d.apply (run fmt) args
  | 0x25#8 :: 0x6c#8 :: 0x64#8 :: fmt, args => Conversion.ld.apply (run fmt) args
  | 0x25#8 :: 0x6c#8 :: 0x6c#8 :: 0x64#8 :: fmt, args => Conversion.lld.apply (run fmt) args
  | 0x25#8 :: 0x73#8 :: fmt, args => Conversion.s.apply (run fmt) args
  | b :: fmt, args => if b = percent then none else (run fmt args).map (b :: ·)

inductive Piece where
  | text (t : List Byte)
  | conversion (c : Conversion)
  deriving DecidableEq

def Piece.bytes : Piece → List Byte
  | text t => t
  | conversion c => c.spec

structure Call where
  format : List Piece
  args : List Arg

/-- No call takes more than 32 arguments. -/
def Call.print (call : Call) : Option (List Byte) :=
  if call.args.length ≤ 32 then run (cString (call.format.flatMap Piece.bytes)) call.args else none

def printAll : List Call → Option (List Byte)
  | [] => some []
  | call :: calls => do
    let text ← call.print
    let more ← printAll calls
    some (text ++ more)

/-- The text of a format string has no directive. -/
def Call.Plain (call : Call) : Prop := ∀ t, .text t ∈ call.format → percent ∉ t

/-! ## Texts and conversions -/

theorem run_text {t : List Byte} (h : percent ∉ t) (fmt : List Byte) (args : List Arg) :
    run (t ++ fmt) args = (run fmt args).map (t ++ ·) := by
  induction t with
  | nil => simp
  | cons b t ih =>
    rw [List.mem_cons, not_or] at h
    have hb : b ≠ 0x25#8 := fun heq => h.1 heq.symm
    have hstep : run (b :: (t ++ fmt)) args = (run (t ++ fmt) args).map (b :: ·) := by
      rw [run]
      · exact if_neg hb
      all_goals
        intros
        simp_all
    rw [List.cons_append, hstep, ih h.2, Option.map_map]
    rfl

theorem run_conversion (c : Conversion) (fmt : List Byte) (args : List Arg) : run (c.spec ++ fmt) args = c.apply (run fmt) args := by
  cases c <;> rfl

/-! ## Calls whose text is known beforehand

A call is put together of texts, and of conversions with the text each is to
print. None of them prints more than that, so that all is printed right only if
every part is.
-/

inductive Part where
  | text (t : List Byte)
  | conversion (c : Conversion) (arg : Arg) (wanted : List Byte)

namespace Part

def piece : Part → Piece
  | text t => .text t
  | conversion c _ _ => .conversion c

def args : Part → List Arg
  | text _ => []
  | conversion _ arg _ => [arg]

def wanted : Part → List Byte
  | text t => t
  | conversion _ _ w => w

def Plain : Part → Prop
  | text t => percent ∉ t
  | conversion .. => True

def Bounded : Part → Prop
  | text _ => True
  | conversion c arg w => ∀ t, c.read arg = some t → t.length ≤ w.length

def Exact : Part → Prop
  | text t => 0 ∉ t
  | conversion c arg w => c.read arg = some w

end Part

def callOf (parts : List Part) : Call := ⟨parts.map Part.piece, parts.flatMap Part.args⟩

def wanted (parts : List Part) : List Byte := parts.flatMap Part.wanted

def formatOf (parts : List Part) : List Byte := parts.flatMap fun part => part.piece.bytes

theorem cString_append_of_not_mem {t : List Byte} (h : 0 ∉ t) (u : List Byte) : cString (t ++ u) = t ++ cString u := by
  unfold cString
  rw [List.takeWhile_append_of_pos]
  intro b hb
  exact bne_iff_ne.mpr fun heq => h (heq ▸ hb)

theorem cString_append_of_mem {t : List Byte} (h : 0 ∈ t) (u : List Byte) : cString (t ++ u) = cString t := by
  induction t with
  | nil => cases h
  | cons b t ih =>
    unfold cString at ih ⊢
    rw [List.cons_append, List.takeWhile_cons, List.takeWhile_cons]
    by_cases hb : b = 0
    · simp [hb]
    · rw [ih ((List.mem_cons.mp h).resolve_left fun heq => hb heq.symm)]

theorem cString_length_lt {t : List Byte} (h : 0 ∈ t) : (cString t).length < t.length := by
  induction t with
  | nil => cases h
  | cons b t ih =>
    unfold cString at ih ⊢
    rw [List.takeWhile_cons]
    by_cases hb : b = 0
    · simp [hb]
    · have := ih ((List.mem_cons.mp h).resolve_left fun heq => hb heq.symm)
      rw [if_pos (bne_iff_ne.mpr hb), List.length_cons, List.length_cons]
      omega

theorem spec_ne_zero (c : Conversion) : 0 ∉ c.spec := by cases c <;> decide

theorem run_plain {t : List Byte} (h : percent ∉ t) (args : List Arg) : run t args = some t := by
  have := run_text h [] args
  rw [List.append_nil] at this
  rw [this, run, Option.map_some, List.append_nil]

theorem run_part {part : Part} {parts : List Part} {out : List Byte} (hplain : part.Plain) (hbounded : part.Bounded)
    (h : run (cString (formatOf (part :: parts))) ((part :: parts).flatMap Part.args) = some out) :
    out.length < part.wanted.length ∨ ∃ t rest, out = t ++ rest ∧ t.length ≤ part.wanted.length ∧
      (t = part.wanted → part.Exact) ∧ run (cString (formatOf parts)) (parts.flatMap Part.args) = some rest := by
  unfold formatOf at h
  rw [List.flatMap_cons, List.flatMap_cons] at h
  cases part with
  | text t =>
    simp only [Part.piece, Piece.bytes, Part.args, List.nil_append] at h
    by_cases hzero : (0 : Byte) ∈ t
    · have hprefix : percent ∉ cString t := fun hmem => hplain (List.takeWhile_subset _ hmem)
      rw [cString_append_of_mem hzero, run_plain hprefix] at h
      cases h
      exact .inl (cString_length_lt hzero)
    · rw [cString_append_of_not_mem hzero, run_text hplain, Option.map_eq_some_iff] at h
      obtain ⟨rest, hrest, rfl⟩ := h
      exact .inr ⟨t, rest, rfl, le_rfl, fun _ => hzero, hrest⟩
  | conversion c arg w =>
    simp only [Part.piece, Piece.bytes, Part.args, List.singleton_append] at h
    rw [cString_append_of_not_mem (spec_ne_zero c), run_conversion] at h
    simp only [Conversion.apply, Option.bind_eq_bind, Option.bind_eq_some_iff, Option.some.injEq] at h
    obtain ⟨t, ht, rest, hrest, rfl⟩ := h
    exact .inr ⟨t, rest, rfl, hbounded t ht, fun heq => ht.trans (congrArg some heq), hrest⟩

theorem run_length {parts : List Part} (hplain : ∀ part ∈ parts, part.Plain) (hbounded : ∀ part ∈ parts, part.Bounded) :
    ∀ {out : List Byte}, run (cString (formatOf parts)) (parts.flatMap Part.args) = some out → out.length ≤ (wanted parts).length := by
  induction parts with
  | nil =>
    intro out h
    cases h
    exact le_rfl
  | cons part parts ih =>
    intro out h
    rw [wanted, List.flatMap_cons, List.length_append]
    rcases run_part (hplain part List.mem_cons_self) (hbounded part List.mem_cons_self) h with hlt | ⟨t, rest, rfl, hle, -, hrest⟩
    · omega
    · have := ih (fun p hp => hplain p (List.mem_cons_of_mem _ hp)) (fun p hp => hbounded p (List.mem_cons_of_mem _ hp)) hrest
      rw [List.length_append]
      unfold wanted at this
      omega

theorem exact_of_run {parts : List Part} (hplain : ∀ part ∈ parts, part.Plain) (hbounded : ∀ part ∈ parts, part.Bounded)
    (h : run (cString (formatOf parts)) (parts.flatMap Part.args) = some (wanted parts)) : ∀ part ∈ parts, part.Exact := by
  induction parts with
  | nil => simp
  | cons part parts ih =>
    have hplain' := fun p hp => hplain p (List.mem_cons_of_mem part hp)
    have hbounded' := fun p hp => hbounded p (List.mem_cons_of_mem part hp)
    have hwanted : wanted (part :: parts) = part.wanted ++ wanted parts := rfl
    rw [hwanted] at h
    rcases run_part (hplain part List.mem_cons_self) (hbounded part List.mem_cons_self) h with hlt | ⟨t, rest, heq, hle, hexact, hrest⟩
    · rw [List.length_append] at hlt
      omega
    · have hrestle := run_length hplain' hbounded' hrest
      have hlen := congrArg List.length heq
      rw [List.length_append, List.length_append] at hlen
      obtain ⟨htext, hmore⟩ := List.append_inj heq (by omega)
      rw [← hmore] at hrest
      intro p hp
      rcases List.mem_cons.mp hp with rfl | hp
      · exact hexact htext.symm
      · exact ih hplain' hbounded' hrest p hp

theorem run_of_exact {parts : List Part} (hplain : ∀ part ∈ parts, part.Plain) (h : ∀ part ∈ parts, part.Exact) :
    run (cString (formatOf parts)) (parts.flatMap Part.args) = some (wanted parts) := by
  induction parts with
  | nil => rfl
  | cons part parts ih =>
    have hrest := ih (fun p hp => hplain p (List.mem_cons_of_mem _ hp)) fun p hp => h p (List.mem_cons_of_mem _ hp)
    have hpart := h part List.mem_cons_self
    have hformat : formatOf (part :: parts) = part.piece.bytes ++ formatOf parts := rfl
    rw [hformat, List.flatMap_cons]
    cases part with
    | text t =>
      have ht := hplain (.text t) List.mem_cons_self
      simp only [Part.piece, Piece.bytes, Part.args, List.nil_append]
      rw [cString_append_of_not_mem hpart, run_text ht, hrest]
      rfl
    | conversion c arg w =>
      simp only [Part.piece, Piece.bytes, Part.args, List.singleton_append]
      rw [cString_append_of_not_mem (spec_ne_zero c), run_conversion]
      simp only [Conversion.apply]
      rw [show c.read arg = some w from hpart, hrest]
      rfl

theorem print_length {parts : List Part} (hplain : ∀ part ∈ parts, part.Plain) (hbounded : ∀ part ∈ parts, part.Bounded)
    {out : List Byte} (h : (callOf parts).print = some out) : out.length ≤ (wanted parts).length := by
  rw [Call.print, Option.ite_none_right_eq_some] at h
  refine run_length hplain hbounded ?_
  rw [← h.2, callOf, List.flatMap_map]
  rfl

theorem print_iff {parts : List Part} (hplain : ∀ part ∈ parts, part.Plain) (hbounded : ∀ part ∈ parts, part.Bounded) :
    (callOf parts).print = some (wanted parts) ↔ (parts.flatMap Part.args).length ≤ 32 ∧ ∀ part ∈ parts, part.Exact := by
  have hformat : (callOf parts).format.flatMap Piece.bytes = formatOf parts := by
    rw [callOf, List.flatMap_map]
    rfl
  rw [Call.print, hformat, Option.ite_none_right_eq_some]
  exact and_congr_right fun _ => ⟨exact_of_run hplain hbounded, run_of_exact hplain⟩

/-! ## Calls one after the other -/

theorem printAll_length {calls : List (List Part)} (hplain : ∀ parts ∈ calls, ∀ part ∈ parts, part.Plain)
    (hbounded : ∀ parts ∈ calls, ∀ part ∈ parts, part.Bounded) :
    ∀ {out : List Byte}, printAll (calls.map callOf) = some out → out.length ≤ (calls.flatMap wanted).length := by
  induction calls with
  | nil =>
    intro out h
    cases h
    exact le_rfl
  | cons parts calls ih =>
    intro out h
    simp only [List.map_cons, printAll, Option.bind_eq_bind, Option.bind_eq_some_iff, Option.some.injEq] at h
    obtain ⟨t, ht, rest, hrest, rfl⟩ := h
    have hle := print_length (hplain parts List.mem_cons_self) (hbounded parts List.mem_cons_self) ht
    have hle' := ih (fun p hp => hplain p (List.mem_cons_of_mem _ hp)) (fun p hp => hbounded p (List.mem_cons_of_mem _ hp)) hrest
    rw [List.length_append, List.flatMap_cons, List.length_append]
    omega

theorem printAll_iff (calls : List (List Part)) (hplain : ∀ parts ∈ calls, ∀ part ∈ parts, part.Plain)
    (hbounded : ∀ parts ∈ calls, ∀ part ∈ parts, part.Bounded) :
    printAll (calls.map callOf) = some (calls.flatMap wanted) ↔
      ∀ parts ∈ calls, (parts.flatMap Part.args).length ≤ 32 ∧ ∀ part ∈ parts, part.Exact := by
  induction calls with
  | nil => simp [printAll]
  | cons parts calls ih =>
    have hplain' := fun p hp => hplain p (List.mem_cons_of_mem parts hp)
    have hbounded' := fun p hp => hbounded p (List.mem_cons_of_mem parts hp)
    have hfirst := print_iff (hplain parts List.mem_cons_self) (hbounded parts List.mem_cons_self)
    rw [List.forall_mem_cons, ← ih hplain' hbounded', ← hfirst]
    simp only [List.map_cons, printAll, Option.bind_eq_bind, Option.bind_eq_some_iff, Option.some.injEq]
    constructor
    · rintro ⟨t, ht, rest, hrest, heq⟩
      have hle := print_length (hplain parts List.mem_cons_self) (hbounded parts List.mem_cons_self) ht
      have hle' := printAll_length hplain' hbounded' hrest
      have hlen := congrArg List.length heq
      rw [List.flatMap_cons, List.length_append, List.length_append] at hlen
      rw [List.flatMap_cons] at heq
      obtain ⟨rfl, rfl⟩ := List.append_inj heq (by omega)
      exact ⟨ht, hrest⟩
    · rintro ⟨ht, hrest⟩
      exact ⟨_, ht, _, hrest, rfl⟩

end Printf
