import NumbaCudaMlir.ItaniumManglerSound

/-!
# Inline PTX

`inline_ptx` sorts its (constraint, value) pairs into three groups of operands and
rewrites the placeholders of the template pair after pair, each over the whole text.
-/

namespace NumbaCudaMlir.InlinePtx

abbrev Text := List Char

/-! ## Replacing text -/

section
variable (src dst : Text)

/-- `replace`, after `n` more characters of the last occurrence. -/
def replaceFrom : Nat → Text → Text
  | _, [] => []
  | n + 1, _ :: cs => replaceFrom n cs
  | 0, c :: cs =>
    if src.isPrefixOf (c :: cs) then dst ++ replaceFrom (src.length - 1) cs else c :: replaceFrom 0 cs

/-- Python's `str.replace` of a text that is not empty. -/
def replace (text : Text) : Text := replaceFrom src dst 0 text

variable {src dst}

theorem replace_cons_of_not {c : Char} {cs : Text} (h : ¬src <+: c :: cs) :
    replace src dst (c :: cs) = c :: replace src dst cs := by
  simp [replace, replaceFrom, h]

theorem replace_two {c d : Char} (cs : Text) : replace [c, d] dst (c :: d :: cs) = dst ++ replace [c, d] dst cs := by
  simp [replace, replaceFrom]

theorem replace_append_of_notMem {c : Char} {u : Text} (h : c ∉ u) (t : Text) :
    replace (c :: src) dst (u ++ t) = u ++ replace (c :: src) dst t := by
  induction u with
  | nil => rfl
  | cons e u ih =>
    simp only [List.mem_cons, not_or] at h
    have hne : ¬c :: src <+: e :: (u ++ t) := fun hp => h.1 (List.cons_prefix_cons.mp hp).1
    rw [List.cons_append, replace_cons_of_not hne, ih h.2, List.cons_append]

end

/-! ## Operands -/

inductive MlirType where
  | i16 | i32 | i64 | f32 | f64 | ptr
  deriving DecidableEq, Repr

inductive Error where
  | valueError (message : Text)
  | notConvertible
  deriving DecidableEq, Repr

inductive Access where
  | read | write | readWrite
  deriving DecidableEq, Repr

def inlinePtxTypeConstraintToMlirType : Char → Except Error MlirType
  | 'h' => .ok .i16
  | 'r' => .ok .i32
  | 'l' => .ok .i64
  | 'f' => .ok .f32
  | 'd' => .ok .f64
  | 'C' => .ok .ptr
  | c => .error (.valueError ("Invalid inline ptx type constraint: ".toList ++ [c]))

def access : Text → Access
  | '+' :: _ => .readWrite
  | '=' :: _ => .write
  | _ => .read

/-- The type of a constraint's last character, of a constraint of one or two characters. -/
def constraintType (constraint : Text) : Except Error MlirType :=
  match constraint with
  | [c] => inlinePtxTypeConstraintToMlirType c
  | [_, c] => inlinePtxTypeConstraintToMlirType c
  | _ => .error (.valueError ("Invalid inline ptx access constraint: ".toList ++ constraint))

def Access.register : Access → Text
  | read => ['r']
  | write => ['w']
  | readWrite => ['r', 'w']

def placeholder (i : Nat) : Text := '%' :: Nat.toDigits 10 i

def Access.reference (a : Access) (i : Nat) : Text := '\x7b' :: '$' :: (a.register ++ Nat.toDigits 10 i ++ ['\x7d'])

structure Operands (V : Type) where
  readOnlyTypes : List V
  writeOnlyTypes : List MlirType
  readWriteTypes : List V
  formatReplacements : List (Text × Text)

/-- The operation `nvvm.inline_ptx` is built with. -/
structure InlinePtxOp (V : Type) where
  writeOnlyArgs : List MlirType
  readOnlyArgs : List V
  readWriteArgs : List V
  ptxCode : Text
  deriving DecidableEq, Repr

section
variable {V : Type} (mlirConvert : V → MlirType → Except Error V)

def addPair (o : Operands V) (i : Nat) (constraint : Text) (arg : V) : Except Error (Operands V) := do
  let mlirType ← constraintType constraint
  match access constraint with
  | .readWrite =>
    let value ← mlirConvert arg mlirType
    .ok { o with
      readWriteTypes := o.readWriteTypes ++ [value]
      formatReplacements := o.formatReplacements ++ [(placeholder i, Access.readWrite.reference i)] }
  | .write =>
    .ok { o with
      writeOnlyTypes := o.writeOnlyTypes ++ [mlirType]
      formatReplacements := o.formatReplacements ++ [(placeholder i, Access.write.reference i)] }
  | .read =>
    let value ← mlirConvert arg mlirType
    .ok { o with
      readOnlyTypes := o.readOnlyTypes ++ [value]
      formatReplacements := o.formatReplacements ++ [(placeholder i, Access.read.reference i)] }

def addPairs (o : Operands V) (i : Nat) : List (Text × V) → Except Error (Operands V)
  | [] => .ok o
  | p :: ps => do addPairs (← addPair mlirConvert o i p.1 p.2) (i + 1) ps

def cgInlinePtx (ptxStr : Text) (pairs : List (Text × V)) : Except Error (InlinePtxOp V) := do
  let o ← addPairs mlirConvert ⟨[], [], [], []⟩ 0 pairs
  .ok {
    writeOnlyArgs := o.writeOnlyTypes
    readOnlyArgs := o.readOnlyTypes
    readWriteArgs := o.readWriteTypes
    ptxCode := o.formatReplacements.foldl (fun text r => replace r.1 r.2 text) ptxStr }

end

/-! ## What the template means -/

/-- The operand that the digits after a `%` name. -/
def operandOf (run : Text) : Option Nat :=
  let j := Nat.ofDigitChars 10 run 0
  if Nat.toDigits 10 j = run then some j else none

/-- The template with every maximal placeholder of an operand below `k` rewritten, `n`
characters of the last one still to be passed. -/
def bindFrom (k : Nat) (ref : Nat → Text) : Nat → Text → Text
  | _, [] => []
  | n + 1, _ :: cs => bindFrom k ref n cs
  | 0, c :: cs =>
    if c = '%' then
      match (operandOf (cs.takeWhile Char.isDigit)).filter (· < k) with
      | some j => ref j ++ bindFrom k ref (cs.takeWhile Char.isDigit).length cs
      | none => c :: bindFrom k ref 0 cs
    else c :: bindFrom k ref 0 cs

def bindPlaceholders (k : Nat) (ref : Nat → Text) (text : Text) : Text := bindFrom k ref 0 text

def percentRuns : Text → List Text
  | [] => []
  | c :: cs => if c = '%' then cs.takeWhile Char.isDigit :: percentRuns cs else percentRuns cs

def digitValue (d : Char) : Nat := d.toNat - '0'.toNat

end NumbaCudaMlir.InlinePtx

/-!
## Which placeholders are bound

The replacements of the pairs, one after another, rewrite every `%` that a digit of an
operand follows, whatever stands after that digit. So a template gets its meaning exactly
where no such digit is followed by another one and every pair is referred to by the number
of its operand.
-/

namespace NumbaCudaMlir.InlinePtx

open Mangler (NoDigit noDigit_cons digits_append_inj)

/-! ## Digits -/

theorem digitValue_digitChar {n : Nat} (h : n < 10) : digitValue n.digitChar = n := by
  have hsmall : ∀ n < 10, digitValue n.digitChar = n := by decide
  exact hsmall n h

theorem isDigit_digitChar {n : Nat} (h : n < 10) : n.digitChar.isDigit = true := by
  have hsmall : ∀ n < 10, n.digitChar.isDigit = true := by decide
  exact hsmall n h

theorem digitValue_lt {d : Char} (h : d.isDigit = true) : digitValue d < 10 := by
  have hd : '0'.toNat ≤ d.toNat ∧ d.toNat ≤ '9'.toNat := by simpa [Char.isDigit, UInt32.le_iff_toNat_le] using h
  have h0 : '0'.toNat = 48 := rfl
  have h9 : '9'.toNat = 57 := rfl
  unfold digitValue
  omega

theorem digitChar_digitValue {d : Char} (h : d.isDigit = true) : (digitValue d).digitChar = d := by
  have hd : '0'.toNat ≤ d.toNat ∧ d.toNat ≤ '9'.toNat := by simpa [Char.isDigit, UInt32.le_iff_toNat_le] using h
  have hsmall : ∀ n < 10, n.digitChar.toNat = n + '0'.toNat := by decide
  apply Char.toNat_inj.mp
  rw [hsmall _ (digitValue_lt h), digitValue]
  omega

theorem toDigits_digitValue {d : Char} (h : d.isDigit = true) : Nat.toDigits 10 (digitValue d) = [d] := by
  rw [Nat.toDigits_of_lt_base (digitValue_lt h), digitChar_digitValue h]

theorem toDigits_cons {i : Nat} : ∃ d ds, Nat.toDigits 10 i = d :: ds ∧ d.isDigit = true ∧ digitValue d ≤ i ∧
    (i < 10 → ds = [] ∧ digitValue d = i) := by
  induction i using Nat.strongRecOn with
  | _ i ih =>
    by_cases hi : i < 10
    · exact ⟨i.digitChar, [], Nat.toDigits_of_lt_base hi, isDigit_digitChar hi, Nat.le_of_eq (digitValue_digitChar hi),
        fun _ => ⟨rfl, digitValue_digitChar hi⟩⟩
    · obtain ⟨d, ds, hds, hd, hle, -⟩ := ih (i / 10) (by omega)
      refine ⟨d, ds ++ Nat.toDigits 10 (i % 10), ?_, hd, by omega, fun h => absurd h hi⟩
      rw [Nat.toDigits_of_base_le (by decide) (by omega), hds, Nat.toDigits_of_lt_base (by omega)]
      rfl

theorem operandOf_eq_some {run : Text} {j : Nat} (h : operandOf run = some j) : run = Nat.toDigits 10 j := by
  simp only [operandOf, Option.ite_none_right_eq_some, Option.some.injEq] at h
  rw [← h.1, h.2]

@[simp] theorem operandOf_nil : operandOf [] = none := by decide

theorem operandOf_digit {d : Char} (h : d.isDigit = true) : operandOf [d] = some (digitValue d) := by
  rw [← toDigits_digitValue h, operandOf, Nat.ofDigitChars_ten_toDigits, if_pos rfl]

/-! ## References -/

theorem percent_notMem_reference (a : Access) (i : Nat) : '%' ∉ a.reference i := by
  have hdigits : '%' ∉ Nat.toDigits 10 i := fun h =>
    absurd (Nat.isDigit_of_mem_toDigits (by decide) (by decide) h) (by decide)
  cases a <;> simp [Access.reference, Access.register, hdigits]

theorem reference_append (a : Access) (i : Nat) (x : Text) :
    a.reference i ++ x = '\x7b' :: '$' :: (a.register ++ (Nat.toDigits 10 i ++ '\x7d' :: x)) := by
  simp [Access.reference]

theorem reference_append_inj {a b : Access} {i j : Nat} {x y : Text}
    (h : a.reference i ++ x = b.reference j ++ y) : a = b ∧ i = j ∧ x = y := by
  have hdigit (n : Nat) (t u : Text) : 'w' :: t ≠ Nat.toDigits 10 n ++ u := by
    obtain ⟨d, ds, hds, hd, -⟩ := @toDigits_cons n
    rw [hds, List.cons_append, Ne, List.cons.injEq, not_and]
    intro hw
    rw [← hw] at hd
    exact absurd hd (by decide)
  rw [reference_append, reference_append, List.cons.injEq, List.cons.injEq] at h
  have hkind : a = b ∧ Nat.toDigits 10 i ++ '\x7d' :: x = Nat.toDigits 10 j ++ '\x7d' :: y := by
    cases a <;> cases b <;> simp only [Access.register, List.cons_append, List.nil_append, List.cons.injEq, true_and] at h
    · exact ⟨rfl, h⟩
    · exact absurd h.1 (by decide)
    · exact absurd h.symm (hdigit _ _ _)
    · exact absurd h.1 (by decide)
    · exact ⟨rfl, h⟩
    · exact absurd h.1 (by decide)
    · exact absurd h (hdigit _ _ _)
    · exact absurd h.1 (by decide)
    · exact ⟨rfl, h⟩
  have hnumber := digits_append_inj (noDigit_cons (by decide)) (noDigit_cons (by decide)) hkind.2
  exact ⟨hkind.1, hnumber.1, (List.cons.inj hnumber.2).2⟩

/-! ## The replacements together -/

/-- The template with every digit below `k` that follows a `%` taken as a placeholder. -/
def substDigits (ref : Nat → Text) (k : Nat) : Text → Text
  | [] => []
  | [c] => [c]
  | c :: d :: cs =>
    if c = '%' ∧ d.isDigit = true ∧ digitValue d < k then ref (digitValue d) ++ substDigits ref k cs
    else c :: substDigits ref k (d :: cs)

section
variable {ref : Nat → Text}

theorem substDigits_zero (text : Text) : substDigits ref 0 text = text := by
  fun_induction substDigits ref 0 text with
  | case1 => rfl
  | case2 => rfl
  | case3 c d cs h => exact absurd h.2.2 (Nat.not_lt_zero _)
  | case4 c d cs h ih => rw [ih]

theorem substDigits_cons {k : Nat} {c : Char} (hc : c ≠ '%') (cs : Text) :
    substDigits ref k (c :: cs) = c :: substDigits ref k cs := by
  cases cs with
  | nil => rfl
  | cons d cs => rw [substDigits, if_neg fun h => hc h.1]

theorem noDigit_append_reference {a : Access} {i : Nat} (t : Text) : NoDigit (a.reference i ++ t) :=
  noDigit_cons (by decide)

theorem noDigit_substDigits {k : Nat} {c : Char} (hc : c.isDigit = false) (cs : Text)
    (href : ∀ j, ∃ a n, ref j = Access.reference a n) : NoDigit (substDigits ref k (c :: cs)) := by
  cases cs with
  | nil => exact noDigit_cons hc
  | cons d cs =>
    rw [substDigits]
    split
    · obtain ⟨a, n, h⟩ := href (digitValue d)
      rw [h]
      exact noDigit_append_reference _
    · exact noDigit_cons hc

theorem replace_substDigits (href : ∀ j, ∃ a n, ref j = Access.reference a n) (i : Nat) (text : Text) :
    replace (placeholder i) (ref i) (substDigits ref i text) = substDigits ref (i + 1) text := by
  have hpass (j : Nat) (t : Text) : replace (placeholder i) (ref i) (ref j ++ t) = ref j ++ replace (placeholder i) (ref i) t := by
    obtain ⟨a, n, h⟩ := href j
    rw [h]
    exact replace_append_of_notMem (percent_notMem_reference a n) t
  obtain ⟨e, es, hes, he, hle, hsmall⟩ := @toDigits_cons i
  fun_induction substDigits ref i text with
  | case1 => rfl
  | case2 c =>
    rw [replace_cons_of_not]
    · rfl
    · intro h
      have := h.length_le
      simp [placeholder, hes] at this
  | case3 c d cs h ih => rw [hpass, ih, substDigits, if_pos ⟨h.1, h.2.1, by omega⟩]
  | case4 c d cs h ih =>
    by_cases hp : placeholder i <+: c :: substDigits ref i (d :: cs)
    · -- the digits of `i` start with `d`, which no earlier pair has taken
      rw [placeholder, hes, List.cons_prefix_cons] at hp
      obtain ⟨rfl, hp⟩ := hp
      have hd : d.isDigit = true := by
        by_contra hd
        obtain ⟨t, ht⟩ := hp
        have := noDigit_substDigits (Bool.eq_false_iff.mpr hd) cs href (k := i)
        rw [← ht] at this
        simp [this e rfl] at he
      have hcons (k : Nat) : substDigits ref k (d :: cs) = d :: substDigits ref k cs :=
        substDigits_cons (fun h => by simp [h] at hd) cs
      obtain rfl : e = d := by
        rw [hcons] at hp
        exact (List.cons_prefix_cons.mp hp).1
      have hi : i < 10 := by
        by_contra hi
        exact h ⟨rfl, he, by have := digitValue_lt he; omega⟩
      obtain ⟨rfl, hvalue⟩ := hsmall hi
      have ih' : replace (placeholder i) (ref i) (substDigits ref i cs) = substDigits ref (i + 1) cs := by
        rw [hcons, hcons, replace_cons_of_not] at ih
        · exact (List.cons.inj ih).2
        · rw [placeholder, List.cons_prefix_cons]
          intro h
          simp [← h.1] at hd
      rw [hcons, substDigits, if_pos ⟨rfl, he, by omega⟩, ← ih', hvalue, placeholder, hes]
      exact replace_two _
    · rw [replace_cons_of_not hp, ih, substDigits, if_neg]
      rintro ⟨rfl, hd, hlt⟩
      have hvalue : digitValue d = i := by
        by_contra hne
        exact h ⟨rfl, hd, by omega⟩
      refine hp ?_
      rw [placeholder, ← hvalue, toDigits_digitValue hd, substDigits_cons (fun h => by simp [h] at hd)]
      exact List.prefix_append ['%', d] _

/-! ## Against the template's meaning -/

variable {k : Nat}

theorem bindFrom_eq_drop (n : Nat) (text : Text) : bindFrom k ref n text = bindPlaceholders k ref (text.drop n) := by
  induction n generalizing text with
  | zero => rfl
  | succ n ih =>
    cases text with
    | nil => simp [bindPlaceholders, bindFrom]
    | cons c cs => rw [bindFrom, ih, List.drop_succ_cons]

theorem bindPlaceholders_cons {c : Char} (hc : c ≠ '%') (cs : Text) :
    bindPlaceholders k ref (c :: cs) = c :: bindPlaceholders k ref cs := by
  simp [bindPlaceholders, bindFrom, hc]

theorem bindPlaceholders_percent_none {cs : Text}
    (h : (operandOf (cs.takeWhile Char.isDigit)).filter (· < k) = none) :
    bindPlaceholders k ref ('%' :: cs) = '%' :: bindPlaceholders k ref cs := by
  rw [bindPlaceholders, bindFrom, if_pos rfl, h]
  rfl

theorem bindPlaceholders_percent_some {cs : Text} {j : Nat}
    (h : (operandOf (cs.takeWhile Char.isDigit)).filter (· < k) = some j) :
    bindPlaceholders k ref ('%' :: cs) = ref j ++ bindPlaceholders k ref (cs.dropWhile Char.isDigit) := by
  have hdrop : cs.drop (cs.takeWhile Char.isDigit).length = cs.dropWhile Char.isDigit := by
    conv_lhs => arg 2; rw [← List.takeWhile_append_dropWhile (p := Char.isDigit) (l := cs)]
    exact List.drop_left
  rw [bindPlaceholders, bindFrom, if_pos rfl, h, bindFrom_eq_drop, hdrop]

theorem noDigit_dropWhile (cs : Text) : NoDigit (cs.dropWhile Char.isDigit) := by
  intro c hc
  have := List.head?_dropWhile_not Char.isDigit cs
  rw [Option.mem_def.mp hc] at this
  simpa using this

theorem noDigit_bindPlaceholders (href : ∀ j, ∃ a n, ref j = Access.reference a n) {text : Text} (h : NoDigit text) :
    NoDigit (bindPlaceholders k ref text) := by
  cases text with
  | nil => exact h
  | cons c cs =>
    by_cases hc : c = '%'
    · subst hc
      cases hop : (operandOf (cs.takeWhile Char.isDigit)).filter (· < k) with
      | none => rw [bindPlaceholders_percent_none hop]; exact noDigit_cons (by decide)
      | some j =>
        obtain ⟨a, n, hj⟩ := href j
        rw [bindPlaceholders_percent_some hop, hj]
        exact noDigit_append_reference _
    · rw [bindPlaceholders_cons hc]
      exact noDigit_cons (h c rfl)

end

/-- No digit of an operand below `k` stands after a `%` and before another digit, and the
operands referred to have the numbers of their pairs. -/
def PlaceholdersApart (number : Nat → Nat) (k : Nat) (template : Text) : Prop :=
  ∀ run ∈ percentRuns template, ∀ d ∈ run.head?, digitValue d < k → run = [d] ∧ number (digitValue d) = digitValue d

section
variable {number : Nat → Nat} {k : Nat}

theorem placeholdersApart_cons {c : Char} (hc : c ≠ '%') (cs : Text) :
    PlaceholdersApart number k (c :: cs) ↔ PlaceholdersApart number k cs := by
  rw [PlaceholdersApart, percentRuns, if_neg hc, PlaceholdersApart]

theorem placeholdersApart_percent (cs : Text) :
    PlaceholdersApart number k ('%' :: cs) ↔
      (∀ d ∈ (cs.takeWhile Char.isDigit).head?, digitValue d < k →
        cs.takeWhile Char.isDigit = [d] ∧ number (digitValue d) = digitValue d) ∧ PlaceholdersApart number k cs := by
  rw [PlaceholdersApart, percentRuns, if_pos rfl, List.forall_mem_cons, PlaceholdersApart]

theorem substDigits_eq_iff (kind : Nat → Access) (template : Text) :
    substDigits (fun j => (kind j).reference j) k template =
      bindPlaceholders k (fun j => (kind j).reference (number j)) template ↔ PlaceholdersApart number k template := by
  have href (f : Nat → Nat) : ∀ j, ∃ a n, (fun j => (kind j).reference (f j)) j = Access.reference a n :=
    fun j => ⟨kind j, f j, rfl⟩
  fun_induction substDigits (fun j => (kind j).reference j) k template with
  | case1 => simp [bindPlaceholders, bindFrom, PlaceholdersApart, percentRuns]
  | case2 c =>
    by_cases hc : c = '%'
    · subst hc
      rw [bindPlaceholders_percent_none (by simp)]
      simp [bindPlaceholders, bindFrom, PlaceholdersApart, percentRuns]
    · rw [bindPlaceholders_cons hc, placeholdersApart_cons hc]
      simp [bindPlaceholders, bindFrom, PlaceholdersApart, percentRuns]
  | case3 c d cs h ih =>
    obtain ⟨rfl, hd, hlt⟩ := h
    have hpercent : d ≠ '%' := fun h => by simp [h] at hd
    replace ih : _ ↔ _ := ih
    rw [placeholdersApart_percent, placeholdersApart_cons hpercent, ← ih, List.takeWhile_cons_of_pos hd]
    cases hrun : cs.takeWhile Char.isDigit with
    | nil =>
      have hop : (operandOf ((d :: cs).takeWhile Char.isDigit)).filter (· < k) = some (digitValue d) := by
        rw [List.takeWhile_cons_of_pos hd, hrun, operandOf_digit hd]
        simp [hlt]
      have hdrop : (d :: cs).dropWhile Char.isDigit = cs := by
        rw [List.dropWhile_cons_of_pos hd]
        conv_rhs => rw [← List.takeWhile_append_dropWhile (p := Char.isDigit) (l := cs), hrun, List.nil_append]
      rw [bindPlaceholders_percent_some hop, hdrop]
      constructor
      · intro h
        obtain ⟨-, hnumber, hrest⟩ := reference_append_inj h
        refine ⟨fun e he hek => ?_, hrest⟩
        obtain rfl := Option.some.inj he
        exact ⟨rfl, hnumber.symm⟩
      · intro h
        rw [(h.1 d rfl hlt).2, h.2]
    | cons e run =>
      -- the digit is replaced alone and the next one is left behind it
      have hhead : cs.head?.filter Char.isDigit = some e := by rw [← List.head?_takeWhile, hrun]; rfl
      obtain ⟨hmem, he⟩ := Option.filter_eq_some_iff.mp hhead
      obtain ⟨cs, rfl⟩ := List.head?_eq_some_iff.mp hmem
      refine iff_of_false (fun h => ?_) fun h => absurd (h.1 d rfl hlt).1 (by simp)
      cases hop : (operandOf ((d :: e :: cs).takeWhile Char.isDigit)).filter (· < k) with
      | none =>
        rw [bindPlaceholders_percent_none hop, reference_append] at h
        exact absurd (List.cons.inj h).1 (by decide)
      | some j =>
        rw [bindPlaceholders_percent_some hop] at h
        have hrest := (reference_append_inj h).2.2
        have hno := noDigit_bindPlaceholders (href number) (k := k) (noDigit_dropWhile (d :: e :: cs))
        rw [← hrest, substDigits_cons (fun h => by simp [h] at he)] at hno
        simp [hno e rfl] at he
  | case4 c d cs h ih =>
    replace ih : _ ↔ _ := ih
    by_cases hc : c = '%'
    · subst hc
      have hfirst : ∀ e ∈ ((d :: cs).takeWhile Char.isDigit).head?, ¬digitValue e < k := by
        intro e he hlt
        by_cases hd : d.isDigit = true
        · rw [List.takeWhile_cons_of_pos hd] at he
          obtain rfl := Option.some.inj he
          exact h ⟨rfl, hd, hlt⟩
        · rw [List.takeWhile_cons_of_neg hd] at he
          exact absurd he (by simp)
      have hop : (operandOf ((d :: cs).takeWhile Char.isDigit)).filter (· < k) = none := by
        rw [Option.filter_eq_none_iff]
        intro j hj
        obtain ⟨e, es, hes, -, hle, -⟩ := @toDigits_cons j
        have := hfirst e (by rw [operandOf_eq_some hj, hes]; rfl)
        simp only [decide_eq_true_eq]
        omega
      rw [bindPlaceholders_percent_none hop, placeholdersApart_percent, List.cons.injEq, ih]
      simp only [true_and]
      exact ⟨fun hr => ⟨fun e he hlt => absurd hlt (hfirst e he), hr⟩, fun hr => hr.2⟩
    · rw [bindPlaceholders_cons hc, placeholdersApart_cons hc, List.cons.injEq, ih]
      simp

end

/-! ## The pairs -/

section
variable {V : Type} (mlirConvert : V → MlirType → Except Error V)

/-- The constraint has a type, and the value converts to it where one is converted. -/
def Accepted (p : Text × V) : Prop :=
  ∃ t, constraintType p.1 = .ok t ∧ (access p.1 ≠ .write → ∃ v, mlirConvert p.2 t = .ok v)

def operand (p : Text × V) : Except Error V := do mlirConvert p.2 (← constraintType p.1)

def ofAccess (a : Access) (pairs : List (Text × V)) : List (Text × V) := pairs.filter fun p => access p.1 = a

def accessAt (pairs : List (Text × V)) (j : Nat) : Access := (pairs[j]?.map fun p => access p.1).getD .read

/-- Each group holds the operands of its pairs in their order, and each maximal placeholder
became the reference to its pair's operand, which `nvvm.inline_ptx` gives its `number`. -/
structure Binds (number : Nat → Nat) (template : Text) (pairs : List (Text × V)) (op : InlinePtxOp V) : Prop where
  readOnlyArgs : op.readOnlyArgs.map .ok = (ofAccess .read pairs).map (operand mlirConvert)
  writeOnlyArgs : op.writeOnlyArgs.map .ok = (ofAccess .write pairs).map fun p => constraintType p.1
  readWriteArgs : op.readWriteArgs.map .ok = (ofAccess .readWrite pairs).map (operand mlirConvert)
  ptxCode : op.ptxCode = bindPlaceholders pairs.length (fun j => (accessAt pairs j).reference (number j)) template

/-- What a run of the loop over `pairs` from pair `i` on adds to the operands. -/
structure Added (i : Nat) (pairs : List (Text × V)) (o o' : Operands V) : Prop where
  readOnlyTypes : o'.readOnlyTypes.map .ok = o.readOnlyTypes.map .ok ++ (ofAccess .read pairs).map (operand mlirConvert)
  writeOnlyTypes : o'.writeOnlyTypes.map .ok =
    o.writeOnlyTypes.map .ok ++ (ofAccess .write pairs).map fun p => constraintType p.1
  readWriteTypes : o'.readWriteTypes.map .ok =
    o.readWriteTypes.map .ok ++ (ofAccess .readWrite pairs).map (operand mlirConvert)
  formatReplacements : o'.formatReplacements =
    o.formatReplacements ++ (pairs.zipIdx i).map fun x => (placeholder x.2, (access x.1.1).reference x.2)

variable {mlirConvert}

theorem addPair_added (o : Operands V) (i : Nat) {p : Text × V} (h : Accepted mlirConvert p) :
    ∃ o', addPair mlirConvert o i p.1 p.2 = .ok o' ∧ Added mlirConvert i [p] o o' := by
  obtain ⟨t, ht, hv⟩ := h
  rw [addPair, ht]
  cases ha : access p.1 with
  | write =>
    refine ⟨_, rfl, ?_, ?_, ?_, ?_⟩ <;> simp [ofAccess, ha, ht]
  | read =>
    obtain ⟨v, hv⟩ := hv (by simp [ha])
    have hop : operand mlirConvert p = .ok v := by rw [operand, ht]; exact hv
    refine ⟨_, by simp only [bind, Except.bind, hv]; rfl, ?_, ?_, ?_, ?_⟩ <;> simp [ofAccess, ha, hop]
  | readWrite =>
    obtain ⟨v, hv⟩ := hv (by simp [ha])
    have hop : operand mlirConvert p = .ok v := by rw [operand, ht]; exact hv
    refine ⟨_, by simp only [bind, Except.bind, hv]; rfl, ?_, ?_, ?_, ?_⟩ <;> simp [ofAccess, ha, hop]

theorem addPairs_added {pairs : List (Text × V)} (h : ∀ p ∈ pairs, Accepted mlirConvert p) (o : Operands V) (i : Nat) :
    ∃ o', addPairs mlirConvert o i pairs = .ok o' ∧ Added mlirConvert i pairs o o' := by
  induction pairs generalizing o i with
  | nil => exact ⟨o, rfl, by simp [ofAccess], by simp [ofAccess], by simp [ofAccess], by simp⟩
  | cons p ps ih =>
    obtain ⟨o₁, h₁, hadd₁⟩ := addPair_added o i (h p List.mem_cons_self)
    obtain ⟨o₂, h₂, hadd₂⟩ := ih (fun q hq => h q (List.mem_cons_of_mem _ hq)) o₁ (i + 1)
    have hsplit (a : Access) : ofAccess a (p :: ps) = ofAccess a [p] ++ ofAccess a ps := by
      rw [ofAccess, ofAccess, ofAccess, ← List.filter_append, List.singleton_append]
    refine ⟨o₂, by rw [addPairs, h₁]; exact h₂, ?_, ?_, ?_, ?_⟩
    · rw [hadd₂.readOnlyTypes, hadd₁.readOnlyTypes, hsplit, List.map_append, List.append_assoc]
    · rw [hadd₂.writeOnlyTypes, hadd₁.writeOnlyTypes, hsplit, List.map_append, List.append_assoc]
    · rw [hadd₂.readWriteTypes, hadd₁.readWriteTypes, hsplit, List.map_append, List.append_assoc]
    · rw [hadd₂.formatReplacements, hadd₁.formatReplacements]
      simp

theorem foldl_replace {ref : Nat → Text} (href : ∀ j, ∃ a n, ref j = Access.reference a n) (pairs : List (Text × V))
    (i : Nat) (hpairs : ∀ x ∈ pairs.zipIdx i, ref x.2 = (access x.1.1).reference x.2) (template : Text) :
    ((pairs.zipIdx i).map fun x => (placeholder x.2, (access x.1.1).reference x.2)).foldl
      (fun text r => replace r.1 r.2 text) (substDigits ref i template) = substDigits ref (i + pairs.length) template := by
  induction pairs generalizing i with
  | nil => rfl
  | cons p ps ih =>
    rw [List.zipIdx_cons] at hpairs
    have hp : (access p.1).reference i = ref i := (hpairs (p, i) List.mem_cons_self).symm
    rw [List.zipIdx_cons, List.map_cons, List.foldl_cons, hp, replace_substDigits href,
      ih (i + 1) fun x hx => hpairs x (List.mem_cons_of_mem _ hx)]
    congr 1
    rw [List.length_cons]
    omega

theorem inline_ptx_binds_iff (number : Nat → Nat) (template : Text) (pairs : List (Text × V))
    (h : ∀ p ∈ pairs, Accepted mlirConvert p) :
    ∃ op, cgInlinePtx mlirConvert template pairs = .ok op ∧
      (Binds mlirConvert number template pairs op ↔ PlaceholdersApart number pairs.length template) := by
  obtain ⟨o, ho, hadd⟩ := addPairs_added h ⟨[], [], [], []⟩ 0
  have href : ∀ j, ∃ a n, (fun j => (accessAt pairs j).reference j) j = Access.reference a n := fun j => ⟨_, _, rfl⟩
  have hzip : ∀ x ∈ pairs.zipIdx 0, (accessAt pairs x.2).reference x.2 = (access x.1.1).reference x.2 := by
    intro x hx
    rw [accessAt, List.mem_zipIdx_iff_getElem?.mp hx]
    rfl
  have hcode : o.formatReplacements.foldl (fun text r => replace r.1 r.2 text) template =
      substDigits (fun j => (accessAt pairs j).reference j) pairs.length template := by
    have := foldl_replace href pairs 0 hzip template
    rwa [substDigits_zero, Nat.zero_add, ← List.nil_append (List.map _ _), ← hadd.formatReplacements] at this
  refine ⟨_, by rw [cgInlinePtx, ho]; rfl, fun hb => ?_, fun hb => ⟨?_, ?_, ?_, ?_⟩⟩
  · rw [← substDigits_eq_iff (accessAt pairs), ← hcode]
    exact hb.ptxCode
  · simpa using hadd.readOnlyTypes
  · simpa using hadd.writeOnlyTypes
  · simpa using hadd.readWriteTypes
  · rw [hcode]
    exact (substDigits_eq_iff (accessAt pairs) template).mpr hb

end

/-- Two outputs and an input, as the numbers of their pairs name them. -/
theorem inline_ptx_binds_three :
    ∃ op, cgInlinePtx (fun (v : Nat) _ => .ok v) "add.u32 %0, %2, %2; mov.u32 %1, %tid.x;".toList
        [("=r".toList, 0), ("=r".toList, 0), ("r".toList, 5)] = .ok op ∧
      (Binds (fun v _ => .ok v) id "add.u32 %0, %2, %2; mov.u32 %1, %tid.x;".toList
        [("=r".toList, 0), ("=r".toList, 0), ("r".toList, 5)] op ↔
          PlaceholdersApart id 3 "add.u32 %0, %2, %2; mov.u32 %1, %tid.x;".toList) :=
  inline_ptx_binds_iff id _ _ fun p hp => by
    simp only [List.mem_cons, List.not_mem_nil, or_false] at hp
    obtain rfl | rfl | rfl := hp
    · exact ⟨.i32, rfl, fun _ => ⟨0, rfl⟩⟩
    · exact ⟨.i32, rfl, fun _ => ⟨0, rfl⟩⟩
    · exact ⟨.i32, rfl, fun _ => ⟨5, rfl⟩⟩

/-- With eleven inputs, the last one's placeholder is taken for the second one's. -/
theorem inline_ptx_ten :
    cgInlinePtx (fun (v : Nat) _ => .ok v) "mov.u32 t, %10;".toList ((List.range 11).map fun i => (['r'], i)) =
        .ok ⟨[], List.range 11, [], "mov.u32 t, \x7b$r1\x7d0;".toList⟩ ∧
      ¬Binds (fun v _ => .ok v) id "mov.u32 t, %10;".toList ((List.range 11).map fun i => (['r'], i))
        ⟨[], List.range 11, [], "mov.u32 t, \x7b$r1\x7d0;".toList⟩ :=
  ⟨by decide, fun h => absurd h.ptxCode (by decide)⟩

end NumbaCudaMlir.InlinePtx
