import NumbaCudaMlir.ItaniumMangler

/-!
# What a mangled name determines

A mangled name is read back from left to right: each identifier starts with its
length, parameters stand between `I` and `E`, and no type starts with either
letter. So a name determines the spelling of its identifier and of each type, and
two names are equal exactly where the escaped parts agree.
-/

namespace NumbaCudaMlir.Mangler

/-! ## Decimal numbers -/

def NoDigit (r : Text) : Prop := ∀ c ∈ r.head?, c.isDigit = false

theorem noDigit_cons {c : Char} {r : Text} (h : c.isDigit = false) : NoDigit (c :: r) := by simpa [NoDigit] using h

theorem takeWhile_digits_append (n : Nat) {r : Text} (hr : NoDigit r) :
    (Nat.toDigits 10 n ++ r).takeWhile Char.isDigit = Nat.toDigits 10 n := by
  rw [List.takeWhile_append_of_pos fun c hc => Nat.isDigit_of_mem_toDigits (by decide) (by decide) hc]
  cases r with
  | nil => simp
  | cons c r => rw [List.takeWhile_cons_of_neg (by simp [hr c rfl]), List.append_nil]

theorem digits_append_inj {n m : Nat} {r r' : Text} (hr : NoDigit r) (hr' : NoDigit r')
    (h : Nat.toDigits 10 n ++ r = Nat.toDigits 10 m ++ r') : n = m ∧ r = r' := by
  have hdigits := takeWhile_digits_append n hr
  rw [h, takeWhile_digits_append m hr'] at hdigits
  rw [hdigits] at h
  exact ⟨(NpDType.toDigits_inj hdigits).symm, List.append_cancel_left h⟩

theorem head_digits_ne_zero {n : Nat} (h : 0 < n) : (Nat.toDigits 10 n).head? ≠ some '0' := by
  induction n using Nat.strongRecOn with
  | _ n ih =>
    by_cases hlt : n < 10
    · have hsmall : ∀ n < 10, 0 < n → (Nat.toDigits 10 n).head? ≠ some '0' := by decide
      exact hsmall n hlt h
    · rw [Nat.toDigits_of_base_le (by decide) (by omega), List.head?_append_of_ne_nil _ Nat.toDigits_ne_nil]
      exact ih (n / 10) (by omega) (by omega)

/-! ## Spellings -/

/-- An escaped part of an identifier: it never starts with a digit. -/
structure Part where
  text : Text
  noDigit : NoDigit text

@[ext] theorem Part.ext {p q : Part} (h : p.text = q.text) : p = q := by cases p; cases q; cases h; rfl

instance : DecidableEq Part := fun p q => decidable_of_iff (p.text = q.text) ⟨Part.ext, fun h => h ▸ rfl⟩

theorem noDigit_fixLeadDigit (text : Text) : NoDigit (fixLeadDigit text) := by
  cases text with
  | nil => simp [NoDigit, fixLeadDigit]
  | cons c cs =>
    rw [fixLeadDigit]
    split
    · exact noDigit_cons (by decide)
    · next h => exact noDigit_cons (by simpa using h)

def Part.ofText (x : Text) : Part := ⟨fixLeadDigit (escapeString x), noDigit_fixLeadDigit _⟩

def Part.encode (p : Part) : Text := Nat.toDigits 10 p.text.length ++ p.text

theorem lenEncoded_escapeString (x : Text) : lenEncoded (escapeString x) = (Part.ofText x).encode := rfl

/-- What a name says of a type, before it is written down. -/
inductive Spelling where
  | code (b : Option Builtin)
  | int (n : Nat)
  | ident (parts : List Part) (params : List Spelling)

namespace Spelling

/-- An identifier's text around its parameters. -/
def wrap (parts : List Part) (extras : Text) : Text :=
  match parts with
  | [p] => p.encode ++ extras
  | parts => 'N' :: (parts.flatMap Part.encode ++ extras ++ ['E'])

def extras (params : Text) (isEmpty : Bool) : Text := if isEmpty then [] else 'I' :: (params ++ ['E'])

mutual

def encode : Spelling → Text
  | code b => b.elim voidCode Builtin.code
  | int n => mangleInt n
  | ident parts params => wrap parts (extras (encodeAll params) params.isEmpty)

def encodeAll : List Spelling → Text
  | [] => []
  | s :: ss => encode s ++ encodeAll ss

end

end Spelling

def partsOf (ident : Text) : List Part := (ident.splitOn '.').map Part.ofText

open Spelling in
theorem mangleIdentifier_eq (ident params : Text) : mangleIdentifier ident params = wrap (partsOf ident) params := by
  have hmap : (ident.splitOn '.').map (fun x => lenEncoded (escapeString x)) = (partsOf ident).map Part.encode := by
    simp [partsOf, lenEncoded_escapeString]
  rw [mangleIdentifier]
  simp only [hmap]
  cases hp : partsOf ident with
  | nil => simp [wrap]
  | cons p ps => cases ps <;> simp [wrap, List.flatMap]

mutual

def spelling : MangledType → Spelling
  | .builtin b => .code (some b)
  | .none => .code none
  | .omitted name => .ident (partsOf name) []
  | .numberClass name _ => .ident (partsOf name) []
  | .array cls dtype ndim layout isMutable aligned =>
    .ident (partsOf cls) [spelling dtype, .int ndim, .ident (partsOf layout) [], .ident (partsOf (mutability isMutable)) [],
      .ident (partsOf (alignedness aligned)) []]
  | .uniTuple cls dtype count => .ident (partsOf cls) [spelling dtype, .int count]
  | .tuple cls types => .ident (partsOf cls) (spellings types)
  | .record cls code => .ident (partsOf cls) [.int code]
  | .named name => .ident (partsOf name) []

def spellings : MangledTypes → List Spelling
  | .nil => []
  | .cons t ts => spelling t :: spellings ts

end

open Spelling

theorem encodeAll_eq (ss : List Spelling) : encodeAll ss = (ss.map encode).flatten := by
  induction ss with
  | nil => rfl
  | cons s ss ih => rw [encodeAll, ih, List.map_cons, List.flatten_cons]

theorem mangleTemplatedIdent_eq (ident : Text) (ss : List Spelling) :
    mangleTemplatedIdent ident (ss.map encode) = encode (.ident (partsOf ident) ss) := by
  rw [mangleTemplatedIdent, mangleIdentifier_eq, encode, encodeAll_eq, extras, List.isEmpty_map]

theorem mangleStr_eq (s : Text) : mangleStr s = encode (.ident (partsOf s) []) := by
  rw [mangleStr, mangleIdentifier_eq, encode]
  rfl

mutual

theorem mangleType_eq : ∀ t : MangledType, mangleType t = encode (spelling t)
  | .builtin b => rfl
  | .none => rfl
  | .omitted name | .numberClass name _ | .named name => mangleTemplatedIdent_eq name []
  | .array cls dtype ndim layout isMutable aligned => by
    rw [mangleType, mangleType_eq dtype, mangleStr_eq, mangleStr_eq, mangleStr_eq]
    exact mangleTemplatedIdent_eq cls [_, .int ndim, _, _, _]
  | .uniTuple cls dtype count => by
    rw [mangleType, mangleType_eq dtype]
    exact mangleTemplatedIdent_eq cls [_, .int count]
  | .tuple cls types => by
    rw [mangleType, mangleTypes_eq types]
    exact mangleTemplatedIdent_eq cls (spellings types)
  | .record cls n => mangleTemplatedIdent_eq cls [.int n]

theorem mangleTypes_eq : ∀ ts : MangledTypes, mangleTypes ts = (spellings ts).map encode
  | .nil => rfl
  | .cons t ts => by rw [mangleTypes, spellings, List.map_cons, mangleType_eq t, mangleTypes_eq ts]

end

/-! ## Reading a name back -/

theorem part_append_inj {p q : Part} {r r' : Text} (h : p.encode ++ r = q.encode ++ r') : p = q ∧ r = r' := by
  have hlen : p.text.length = q.text.length := by
    have hzero : ∀ {n m : Nat} {u u' : Text}, 0 < m → Nat.toDigits 10 n ++ u = Nat.toDigits 10 m ++ u' → n ≠ 0 := by
      rintro n m u u' hm h rfl
      have hhead := congrArg List.head? h
      rw [List.head?_append_of_ne_nil _ Nat.toDigits_ne_nil, List.head?_append_of_ne_nil _ Nat.toDigits_ne_nil] at hhead
      exact head_digits_ne_zero hm hhead.symm
    have hno : ∀ (p : Part) (r : Text), p.text.length ≠ 0 → NoDigit (p.text ++ r) := by
      intro p r hp
      rw [NoDigit, List.head?_append_of_ne_nil _ (by rintro h; simp [h] at hp)]
      exact p.noDigit
    simp only [Part.encode, List.append_assoc] at h
    by_cases hp : p.text.length = 0
    · by_cases hq : q.text.length = 0
      · rw [hp, hq]
      · exact absurd hp (hzero (Nat.pos_of_ne_zero hq) h)
    · have hq := hzero (Nat.pos_of_ne_zero hp) h.symm
      exact (digits_append_inj (hno p r hp) (hno q r' hq) h).1
  simp only [Part.encode, List.append_assoc, hlen] at h
  obtain ⟨htext, hrest⟩ := List.append_inj (List.append_cancel_left h) hlen
  exact ⟨Part.ext htext, hrest⟩

theorem head_part (p : Part) : ∃ c r, p.encode = c :: r ∧ c.isDigit = true := by
  cases h : Nat.toDigits 10 p.text.length with
  | nil => exact absurd h Nat.toDigits_ne_nil
  | cons c r =>
    have hc : c ∈ Nat.toDigits 10 p.text.length := by simp [h]
    exact ⟨c, r ++ p.text, by rw [Part.encode, h]; rfl, Nat.isDigit_of_mem_toDigits (by decide) (by decide) hc⟩

theorem parts_append_inj {ps qs : List Part} {r r' : Text} (hr : NoDigit r) (hr' : NoDigit r')
    (h : ps.flatMap Part.encode ++ r = qs.flatMap Part.encode ++ r') : ps = qs ∧ r = r' := by
  have hstop : ∀ {p : Part} {u r : Text}, NoDigit r → r ≠ p.encode ++ u := by
    rintro p u r hr rfl
    obtain ⟨c, v, hp, hc⟩ := head_part p
    simp [NoDigit, hp, hc] at hr
  induction ps generalizing qs with
  | nil =>
    cases qs with
    | nil => exact ⟨rfl, h⟩
    | cons q qs => exact absurd (by simpa using h) (hstop hr)
  | cons p ps ih =>
    cases qs with
    | nil => exact absurd (by simpa using h.symm) (hstop hr')
    | cons q qs =>
      simp only [List.flatMap_cons, List.append_assoc] at h
      obtain ⟨hpq, hrest⟩ := part_append_inj h
      obtain ⟨hps, hr⟩ := ih hrest
      exact ⟨by rw [hpq, hps], hr⟩

def NoParams (r : Text) : Prop := r.head? ≠ some 'I'

/-- `r` is the end of the name or of a list of parameters. -/
def Closes (r : Text) : Prop := ∀ c ∈ r.head?, c = 'E'

theorem noDigit_extras (params : Text) (b : Bool) (r : Text) : NoDigit (extras params b ++ 'E' :: r) := by
  cases b <;> exact noDigit_cons (by decide)

theorem extras_append_inj {ps qs : List Spelling} {r r' : Text}
    (ih : ∀ u u', Closes u → Closes u' → encodeAll ps ++ u = encodeAll qs ++ u' → ps = qs ∧ u = u')
    (hr : NoParams r) (hr' : NoParams r')
    (h : extras (encodeAll ps) ps.isEmpty ++ r = extras (encodeAll qs) qs.isEmpty ++ r') : ps = qs ∧ r = r' := by
  cases ps with
  | nil =>
    cases qs with
    | nil => exact ⟨rfl, h⟩
    | cons q qs => exact absurd (congrArg List.head? h) hr
  | cons p ps =>
    cases qs with
    | nil => exact absurd (congrArg List.head? h.symm) hr'
    | cons q qs =>
      have h' : encodeAll (p :: ps) ++ 'E' :: r = encodeAll (q :: qs) ++ 'E' :: r' := by
        simpa [extras] using h
      obtain ⟨hps, hrest⟩ := ih _ _ (by simp [Closes]) (by simp [Closes]) h'
      exact ⟨hps, (List.cons.inj hrest).2⟩

theorem wrap_append_inj {ps qs : List Part} {x y r r' : Text} (hx : NoDigit (x ++ 'E' :: r)) (hy : NoDigit (y ++ 'E' :: r'))
    (h : wrap ps x ++ r = wrap qs y ++ r') : ps = qs ∧ (x ++ r = y ++ r' ∨ x ++ 'E' :: r = y ++ 'E' :: r') := by
  have hdigit : ∀ (p : Part) (u v : Text), p.encode ++ u ≠ 'N' :: v := by
    intro p u v h
    obtain ⟨c, w, hp, hc⟩ := head_part p
    rw [hp] at h
    obtain ⟨rfl, -⟩ := List.cons.inj h
    exact absurd hc (by decide)
  have hcases : ∀ (ps : List Part) (x : Text), (∃ p, ps = [p]) ∨
      wrap ps x = 'N' :: (ps.flatMap Part.encode ++ x ++ ['E']) := by
    intro ps x
    match ps with
    | [] => exact .inr rfl
    | [p] => exact .inl ⟨p, rfl⟩
    | _ :: _ :: _ => exact .inr rfl
  obtain ⟨p, rfl⟩ | hp := hcases ps x <;> obtain ⟨q, rfl⟩ | hq := hcases qs y
  · simp only [wrap, List.append_assoc] at h
    obtain ⟨rfl, hrest⟩ := part_append_inj h
    exact ⟨rfl, .inl hrest⟩
  · rw [hq, wrap, List.append_assoc, List.cons_append] at h
    exact absurd h (hdigit p _ _)
  · rw [hp, wrap, List.append_assoc, List.cons_append] at h
    exact absurd (by simpa using h.symm) (hdigit q (y ++ r') _)
  · simp only [hp, hq, List.append_assoc, List.cons_append, List.nil_append] at h
    obtain ⟨hparts, hrest⟩ := parts_append_inj hx hy (List.cons.inj h).2
    exact ⟨hparts, .inr hrest⟩

theorem extras_or_inj {ps qs : List Spelling} {r r' : Text}
    (ih : ∀ u u', Closes u → Closes u' → encodeAll ps ++ u = encodeAll qs ++ u' → ps = qs ∧ u = u')
    (hr : NoParams r) (hr' : NoParams r')
    (h : extras (encodeAll ps) ps.isEmpty ++ r = extras (encodeAll qs) qs.isEmpty ++ r' ∨
      extras (encodeAll ps) ps.isEmpty ++ 'E' :: r = extras (encodeAll qs) qs.isEmpty ++ 'E' :: r') :
    ps = qs ∧ r = r' := by
  obtain h | h := h
  · exact extras_append_inj ih hr hr' h
  · have hE : ∀ u : Text, NoParams ('E' :: u) := by simp [NoParams]
    obtain ⟨hps, hrest⟩ := extras_append_inj ih (hE r) (hE r') h
    exact ⟨hps, (List.cons.inj hrest).2⟩

theorem head_code (b : Option Builtin) : ∃ c r, b.elim voidCode Builtin.code = c :: r ∧ c ∈ "bhatsjiyxDfdv".toList := by
  cases b with
  | none => exact ⟨'v', [], rfl, by decide⟩
  | some b => cases b <;> exact ⟨_, _, rfl, by decide⟩

theorem head_ident (ps : List Part) (x : Text) : ∃ c r, wrap ps x = c :: r ∧ (c.isDigit = true ∨ c = 'N') := by
  match ps with
  | [] => exact ⟨'N', _, rfl, .inr rfl⟩
  | [p] =>
    obtain ⟨c, r, hp, hc⟩ := head_part p
    exact ⟨c, r ++ x, by rw [wrap, hp]; rfl, .inl hc⟩
  | _ :: _ :: _ => exact ⟨'N', _, rfl, .inr rfl⟩

theorem head_encode (s : Spelling) : ∃ c r, encode s = c :: r ∧ c ≠ 'I' ∧ c ≠ 'E' := by
  cases s with
  | code b =>
    obtain ⟨c, r, hb, hc⟩ := head_code b
    refine ⟨c, r, hb, ?_⟩
    constructor <;> rintro rfl <;> exact absurd hc (by decide)
  | int n => exact ⟨'L', _, rfl, by decide, by decide⟩
  | ident ps params =>
    obtain ⟨c, r, hw, hc⟩ := head_ident ps (extras (encodeAll params) params.isEmpty)
    refine ⟨c, r, hw, ?_⟩
    constructor <;> rintro rfl <;> exact absurd hc (by decide)

theorem noParams_encodeAll (ss : List Spelling) {r : Text} (hr : NoParams r) : NoParams (encodeAll ss ++ r) := by
  cases ss with
  | nil => exact hr
  | cons s ss =>
    obtain ⟨c, u, hs, hc, -⟩ := head_encode s
    rw [encodeAll, hs]
    exact fun h => hc (Option.some.inj h)

theorem closes_ne_encode {s : Spelling} {u r : Text} (hr : Closes r) : r ≠ encode s ++ u := by
  rintro rfl
  obtain ⟨c, v, hs, -, hc⟩ := head_encode s
  exact hc (hr c (by rw [hs]; rfl))

theorem noParams_of_closes {r : Text} (hr : Closes r) : NoParams r := by
  intro h
  exact absurd (hr 'I' h) (by decide)

theorem code_append_inj {b b' : Option Builtin} {r r' : Text}
    (h : b.elim voidCode Builtin.code ++ r = b'.elim voidCode Builtin.code ++ r') : b = b' ∧ r = r' := by
  have hb : b = b' := by
    have hhead := congrArg List.head? h
    cases b with
    | none =>
      cases b' with
      | none => rfl
      | some b' => cases b' <;> simp [voidCode, Builtin.code] at hhead
    | some b =>
      cases b' with
      | none => cases b <;> simp [voidCode, Builtin.code] at hhead
      | some b' => cases b <;> cases b' <;> first | rfl | simp [Builtin.code] at hhead
  subst hb
  exact ⟨rfl, List.append_cancel_left h⟩

theorem int_append_inj {n m : Nat} {r r' : Text} (h : mangleInt n ++ r = mangleInt m ++ r') : n = m ∧ r = r' := by
  simp only [mangleInt, List.cons_append, List.append_assoc, List.cons.injEq, true_and, List.nil_append] at h
  obtain ⟨hn, hrest⟩ := digits_append_inj (noDigit_cons (by decide)) (noDigit_cons (by decide)) h
  exact ⟨hn, (List.cons.inj hrest).2⟩

theorem code_ne_int (b : Option Builtin) (n : Nat) (r r' : Text) : b.elim voidCode Builtin.code ++ r ≠ mangleInt n ++ r' := by
  obtain ⟨c, u, hb, hc⟩ := head_code b
  rw [hb, mangleInt]
  rintro h
  obtain ⟨rfl, -⟩ := List.cons.inj h
  exact absurd hc (by decide)

theorem code_ne_wrap (b : Option Builtin) (ps : List Part) (x r r' : Text) :
    b.elim voidCode Builtin.code ++ r ≠ wrap ps x ++ r' := by
  obtain ⟨c, u, hb, hc⟩ := head_code b
  obtain ⟨d, v, hp, hd⟩ := head_ident ps x
  rw [hb, hp]
  rintro h
  obtain ⟨rfl, -⟩ := List.cons.inj h
  have hno : ∀ c ∈ "bhatsjiyxDfdv".toList, ¬(c.isDigit = true ∨ c = 'N') := by simp [Char.isDigit]
  exact hno c hc hd

theorem int_ne_wrap (n : Nat) (ps : List Part) (x r r' : Text) : mangleInt n ++ r ≠ wrap ps x ++ r' := by
  obtain ⟨d, v, hp, hd⟩ := head_ident ps x
  rw [hp, mangleInt]
  rintro h
  obtain ⟨rfl, -⟩ := List.cons.inj h
  exact absurd hd (by decide)

mutual

theorem encode_append_inj : ∀ (s s' : Spelling) (r r' : Text), NoParams r → NoParams r' →
    encode s ++ r = encode s' ++ r' → s = s' ∧ r = r'
  | .code b, .code b', r, r', _, _, h => by
    obtain ⟨rfl, hr⟩ := code_append_inj h
    exact ⟨rfl, hr⟩
  | .code b, .int n, r, r', _, _, h => absurd h (code_ne_int b n r r')
  | .code b, .ident ps xs, r, r', _, _, h => absurd h (code_ne_wrap b ps _ r r')
  | .int n, .code b, r, r', _, _, h => absurd h.symm (code_ne_int b n r' r)
  | .int n, .int m, r, r', _, _, h => by
    obtain ⟨rfl, hr⟩ := int_append_inj h
    exact ⟨rfl, hr⟩
  | .int n, .ident ps xs, r, r', _, _, h => absurd h (int_ne_wrap n ps _ r r')
  | .ident ps xs, .code b, r, r', _, _, h => absurd h.symm (code_ne_wrap b ps _ r' r)
  | .ident ps xs, .int n, r, r', _, _, h => absurd h.symm (int_ne_wrap n ps _ r' r)
  | .ident ps xs, .ident qs ys, r, r', hr, hr', h => by
    obtain ⟨rfl, hrest⟩ := wrap_append_inj (noDigit_extras _ _ _) (noDigit_extras _ _ _) h
    obtain ⟨rfl, htail⟩ := extras_or_inj (encodeAll_append_inj xs ys) hr hr' hrest
    exact ⟨rfl, htail⟩

theorem encodeAll_append_inj : ∀ (ss ss' : List Spelling) (r r' : Text), Closes r → Closes r' →
    encodeAll ss ++ r = encodeAll ss' ++ r' → ss = ss' ∧ r = r'
  | [], [], _, _, _, _, h => ⟨rfl, h⟩
  | [], s' :: ss', r, r', hr, _, h => absurd (by simpa [encodeAll] using h) (closes_ne_encode hr)
  | s :: ss, [], r, r', _, hr', h => absurd (by simpa [encodeAll] using h.symm) (closes_ne_encode hr')
  | s :: ss, s' :: ss', r, r', hr, hr', h => by
    simp only [encodeAll, List.append_assoc] at h
    obtain ⟨rfl, hrest⟩ := encode_append_inj s s' _ _ (noParams_encodeAll ss (noParams_of_closes hr))
      (noParams_encodeAll ss' (noParams_of_closes hr')) h
    obtain ⟨rfl, htail⟩ := encodeAll_append_inj ss ss' r r' hr hr' hrest
    exact ⟨rfl, htail⟩

end

/-! ## Names of functions -/

theorem mangle_eq (ident : Text) (argtys : List MangledType) :
    mangle ident argtys = '_' :: 'Z' :: (wrap (partsOf ident) [] ++ encodeAll (argtys.map spelling)) := by
  rw [mangle, mangleIdentifier_eq, encodeAll_eq, List.map_map, List.flatMap]
  congr 4
  exact List.map_congr_left fun t _ => mangleType_eq t

theorem mangle_eq_iff {ident ident' : Text} {argtys argtys' : List MangledType} :
    mangle ident argtys = mangle ident' argtys' ↔
      partsOf ident = partsOf ident' ∧ argtys.map spelling = argtys'.map spelling := by
  rw [mangle_eq, mangle_eq]
  constructor
  · intro h
    have h' : encode (.ident (partsOf ident) []) ++ encodeAll (argtys.map spelling) =
        encode (.ident (partsOf ident') []) ++ encodeAll (argtys'.map spelling) := by
      simpa [encode, extras] using h
    have hend : NoParams [] := by simp [NoParams]
    have hno := fun ss => by simpa using noParams_encodeAll ss hend
    obtain ⟨hparts, hargs⟩ := encode_append_inj _ _ _ _ (hno _) (hno _) h'
    have hclose : Closes [] := by simp [Closes]
    exact ⟨(Spelling.ident.inj hparts).1, (encodeAll_append_inj _ _ [] [] hclose hclose (by simpa using hargs)).1⟩
  · rintro ⟨hparts, hargs⟩
    rw [hparts, hargs]

theorem splitOn_append {s : Text} (hs : '.' ∉ s) (q : Text) :
    ∃ init last, (q ++ s).splitOn '.' = init ++ [last ++ s] := by
  induction q with
  | nil => exact ⟨[], [], by rw [List.nil_append, List.splitOn_eq_singleton hs]; rfl⟩
  | cons c q ih =>
    obtain ⟨init, last, h⟩ := ih
    rw [List.cons_append, List.splitOn_cons_eq_if_modifyHead, h]
    split
    · exact ⟨[] :: init, last, rfl⟩
    · cases init with
      | nil => exact ⟨[], c :: last, rfl⟩
      | cons p init => exact ⟨(c :: p) :: init, last, rfl⟩

theorem escapeString_valid {s : Text} (hs : ∀ c ∈ s, isValidChar c = true) : escapeString s = s := by
  induction s with
  | nil => rfl
  | cons c s ih =>
    rw [escapeString, List.flatMap_cons, escapeChar, if_pos (hs c (by simp))]
    rw [escapeString] at ih
    rw [ih fun d hd => hs d (by simp [hd])]
    rfl

theorem isDigit_of_mem_idSuffix {n : Nat} {c : Char} (h : c ∈ idSuffix n) : c = '_' ∨ c.isDigit = true := by
  obtain rfl | h := List.mem_cons.mp h
  · exact .inl rfl
  · exact .inr (Nat.isDigit_of_mem_toDigits (by decide) (by decide) h)

theorem dot_notMem_idSuffix (n : Nat) : '.' ∉ idSuffix n := by
  intro h
  exact absurd (isDigit_of_mem_idSuffix h) (by decide)

theorem isValidChar_idSuffix {n : Nat} {c : Char} (h : c ∈ idSuffix n) : isValidChar c = true := by
  obtain rfl | h := isDigit_of_mem_idSuffix h
  · decide
  · simp [isValidChar, Char.isAlphanum, h]

theorem ofText_idSuffix (x : Text) (n : Nat) : ∃ y, (Part.ofText (x ++ idSuffix n)).text = y ++ ['_'] ++ Nat.toDigits 10 n := by
  have hesc : escapeString (x ++ idSuffix n) = escapeString x ++ idSuffix n := by
    rw [escapeString, List.flatMap_append]
    exact congrArg (escapeString x ++ ·) (escapeString_valid fun c => isValidChar_idSuffix)
  simp only [Part.ofText, hesc]
  cases escapeString x with
  | nil => exact ⟨[], rfl⟩
  | cons c cs =>
    rw [List.cons_append, fixLeadDigit]
    split
    · exact ⟨'_' :: c :: cs, by simp [idSuffix]⟩
    · exact ⟨c :: cs, by simp [idSuffix]⟩

theorem partsOf_idSuffix_inj {q q' : Text} {n n' : Nat} (h : partsOf (q ++ idSuffix n) = partsOf (q' ++ idSuffix n')) :
    n = n' := by
  obtain ⟨init, last, hq⟩ := splitOn_append (dot_notMem_idSuffix n) q
  obtain ⟨init', last', hq'⟩ := splitOn_append (dot_notMem_idSuffix n') q'
  rw [partsOf, partsOf, hq, hq', List.map_append, List.map_append] at h
  have hlast := (List.append_inj' h rfl).2
  simp only [List.map_cons, List.map_nil, List.cons.injEq, and_true] at hlast
  obtain ⟨y, hy⟩ := ofText_idSuffix last n
  obtain ⟨y', hy'⟩ := ofText_idSuffix last' n'
  rw [hlast, hy'] at hy
  exact (NpDType.append_digits_inj (by decide) hy).2.symm

/-- How the types a specialisation is passed are spelled in its name. -/
def spelledArgs (foldedArgtypes : List MangledType) : List Spelling :=
  ((callArgtypes foldedArgtypes).map argtypeNormalization).map spelling

theorem generateMangledName_eq_iff {funcName funcName' : Text} {argtypes argtypes' : List MangledType} :
    generateMangledName funcName (callArgtypes argtypes) = generateMangledName funcName' (callArgtypes argtypes') ↔
      partsOf funcName = partsOf funcName' ∧ spelledArgs argtypes = spelledArgs argtypes' := mangle_eq_iff

end NumbaCudaMlir.Mangler
