import Mathlib.Data.List.Nodup
import Mathlib.Data.List.Perm.Basic

/-!
# Binding a call's arguments

Python's rules for a call: positional arguments fill the first parameters and
what is left goes to `*args`, keywords find their parameter by name and what is
left goes to `**kwargs`, the other parameters take their defaults.
-/

namespace PythonCall

inductive ParameterKind where
  | positionalOnly | positionalOrKeyword | varPositional | keywordOnly | varKeyword
  deriving DecidableEq, Repr

def ParameterKind.rank : ParameterKind → Nat
  | positionalOnly => 0
  | positionalOrKeyword => 1
  | varPositional => 2
  | keywordOnly => 3
  | varKeyword => 4

def ParameterKind.isVariadic : ParameterKind → Bool
  | varPositional | varKeyword => true
  | _ => false

def ParameterKind.takesKeyword : ParameterKind → Bool
  | positionalOrKeyword | keywordOnly => true
  | _ => false

structure Parameter (ν δ : Type) where
  name : ν
  kind : ParameterKind
  default : Option δ
  deriving DecidableEq, Repr

def Parameter.takesKeyword {ν δ : Type} (p : Parameter ν δ) : Bool := p.kind.takesKeyword

def Parameter.Before {ν δ : Type} (p q : Parameter ν δ) : Prop :=
  p.kind.rank < q.kind.rank ∨ p.kind = q.kind ∧ p.kind.isVariadic = false

instance {ν δ : Type} (p q : Parameter ν δ) : Decidable (p.Before q) := inferInstanceAs (Decidable (_ ∨ _))

structure Signature (ν δ : Type) where
  parameters : List (Parameter ν δ)
  names_nodup : (parameters.map (·.name)).Nodup
  ordered : parameters.Pairwise Parameter.Before

inductive Bound (ν δ α : Type) where
  | value (a : α)
  | omitted (default : δ)
  | starArg (values : List α)
  | starKwarg (values : List (ν × α))
  deriving DecidableEq, Repr

variable {ν δ α β : Type}

def Bound.values : Bound ν δ α → List α
  | value a => [a]
  | omitted _ => []
  | starArg as => as
  | starKwarg kws => kws.map (·.2)

def Bound.map (f : α → β) : Bound ν δ α → Bound ν δ β
  | value a => .value (f a)
  | omitted d => .omitted d
  | starArg as => .starArg (as.map f)
  | starKwarg kws => .starKwarg (kws.map fun k => (k.1, f k.2))

def Bound.isStar : Bound ν δ α → Bool
  | starArg _ | starKwarg _ => true
  | _ => false

theorem isVariadic_of_takesKeyword {p : Parameter ν δ} (h : p.takesKeyword = true) : p.kind.isVariadic = false := by
  rw [Parameter.takesKeyword] at h
  cases hk : p.kind <;> simp_all [ParameterKind.takesKeyword, ParameterKind.isVariadic]

section

variable [DecidableEq ν]

def without (name : ν) (kws : List (ν × α)) : List (ν × α) := kws.filter (·.1 ≠ name)

/-- `Signature.bind`, one parameter after the other. -/
def bind : List (Parameter ν δ) → List α → List (ν × α) → Option (List (Bound ν δ α))
  | [], [], [] => some []
  | [], _, _ => none
  | p :: ps, as, kws =>
    match p.kind, as with
    | .positionalOnly, a :: as => (.value a :: ·) <$> bind ps as kws
    | .positionalOnly, [] => p.default.bind fun d => (.omitted d :: ·) <$> bind ps [] kws
    | .positionalOrKeyword, a :: as => if (kws.lookup p.name).isSome then none else (.value a :: ·) <$> bind ps as kws
    | .varPositional, as => (.starArg as :: ·) <$> bind ps [] kws
    | .varKeyword, [] => (.starKwarg kws :: ·) <$> bind ps [] []
    | .positionalOrKeyword, [] | .keywordOnly, [] =>
      match kws.lookup p.name with
      | some a => (.value a :: ·) <$> bind ps [] (without p.name kws)
      | none => p.default.bind fun d => (.omitted d :: ·) <$> bind ps [] kws
    | .keywordOnly, _ :: _ | .varKeyword, _ :: _ => none

/-! ## Binding does not look at the arguments -/

theorem lookup_cons_eq (name : ν) (k : ν × α) (kws : List (ν × α)) :
    (k :: kws).lookup name = if k.1 = name then some k.2 else kws.lookup name := by
  rw [List.lookup_cons]
  by_cases h : k.1 = name
  · simp [h]
  · rw [if_neg h, beq_eq_false_iff_ne.mpr (Ne.symm h)]

theorem lookup_map (f : α → β) (name : ν) (kws : List (ν × α)) :
    (kws.map fun k => (k.1, f k.2)).lookup name = (kws.lookup name).map f := by
  induction kws with
  | nil => rfl
  | cons k kws ih =>
    rw [List.map_cons, lookup_cons_eq, lookup_cons_eq, ih]
    by_cases h : k.1 = name <;> simp [h]

theorem without_map (f : α → β) (name : ν) (kws : List (ν × α)) :
    without name (kws.map fun k => (k.1, f k.2)) = (without name kws).map fun k => (k.1, f k.2) := by
  simp [without, List.filter_map, Function.comp_def]

theorem bind_map (f : α → β) : ∀ (ps : List (Parameter ν δ)) (as : List α) (kws : List (ν × α)),
    bind ps (as.map f) (kws.map fun k => (k.1, f k.2)) = (bind ps as kws).map (List.map (Bound.map f))
  | [], [], [] => rfl
  | [], [], _ :: _ => rfl
  | [], _ :: _, _ => rfl
  | p :: ps, as, kws => by
    have ih := bind_map f ps
    have ihNil : ∀ kws : List (ν × α), bind ps [] (kws.map fun k => (k.1, f k.2)) =
        (bind ps [] kws).map (List.map (Bound.map f)) := ih []
    have ihDone : bind ps [] [] = (bind ps [] []).map (List.map (Bound.map f)) := ih [] []
    cases hk : p.kind <;> cases as <;>
      simp only [bind, hk, List.map_nil, List.map_cons, lookup_map, Option.isSome_map]
    case positionalOnly.nil => cases p.default <;> simp [ihNil, Bound.map, Function.comp_def]
    case positionalOnly.cons a as => simp [ih as kws, Bound.map, Function.comp_def]
    case positionalOrKeyword.cons a as =>
      by_cases h : (kws.lookup p.name).isSome
      · simp [h]
      · simp [h, ih as kws, Bound.map, Function.comp_def]
    case varPositional.nil => simp [ihNil, Bound.map, Function.comp_def]
    case varPositional.cons a as => simp [ihNil, Bound.map, Function.comp_def]
    case varKeyword.nil =>
      rw [ihDone]
      simp [Bound.map, Function.comp_def]
    case varKeyword.cons => rfl
    case keywordOnly.cons => rfl
    all_goals
      cases kws.lookup p.name with
      | none => cases p.default <;> simp [ihNil, Bound.map, Function.comp_def]
      | some a => simp [without_map, ihNil, Bound.map, Function.comp_def]

/-! ## What one parameter takes -/

/-- What a parameter is bound to, and the arguments it leaves. -/
inductive BindsTo (p : Parameter ν δ) : List α → List (ν × α) → Bound ν δ α → List α → List (ν × α) → Prop where
  | positional {a : α} {as : List α} {kws : List (ν × α)}
      (hk : p.kind = .positionalOnly ∨ p.kind = .positionalOrKeyword ∧ kws.lookup p.name = none) :
      BindsTo p (a :: as) kws (.value a) as kws
  | keyword {a : α} {kws : List (ν × α)} (hk : p.takesKeyword = true) (ha : kws.lookup p.name = some a) :
      BindsTo p [] kws (.value a) [] (without p.name kws)
  | default {d : δ} {kws : List (ν × α)} (hv : p.kind.isVariadic = false)
      (hk : p.takesKeyword = true → kws.lookup p.name = none) (hd : p.default = some d) :
      BindsTo p [] kws (.omitted d) [] kws
  | varPositional {as : List α} {kws : List (ν × α)} (hk : p.kind = .varPositional) : BindsTo p as kws (.starArg as) [] kws
  | varKeyword {kws : List (ν × α)} (hk : p.kind = .varKeyword) : BindsTo p [] kws (.starKwarg kws) [] []

theorem bind_cons {p : Parameter ν δ} {ps : List (Parameter ν δ)} {as : List α} {kws : List (ν × α)}
    {bs : List (Bound ν δ α)} (h : bind (p :: ps) as kws = some bs) :
    ∃ b as' kws' bs', bs = b :: bs' ∧ BindsTo p as kws b as' kws' ∧ bind ps as' kws' = some bs' := by
  have byKeyword : p.takesKeyword = true → (match kws.lookup p.name with
      | some a => (Bound.value a :: ·) <$> bind ps [] (without p.name kws)
      | none => p.default.bind fun d => (Bound.omitted d :: ·) <$> bind ps [] kws) = some bs →
      ∃ b as' kws' bs', bs = b :: bs' ∧ BindsTo p [] kws b as' kws' ∧ bind ps as' kws' = some bs' := fun hk h => by
    cases hl : kws.lookup p.name with
    | none =>
      rw [hl] at h
      obtain ⟨d, hd, h⟩ := Option.bind_eq_some_iff.mp h
      obtain ⟨bs', hbs, rfl⟩ := Option.map_eq_some_iff.mp h
      exact ⟨_, _, _, bs', rfl, .default (isVariadic_of_takesKeyword hk)
        (fun _ => hl) hd, hbs⟩
    | some a =>
      rw [hl] at h
      obtain ⟨bs', hbs, rfl⟩ := Option.map_eq_some_iff.mp h
      exact ⟨_, _, _, bs', rfl, .keyword hk hl, hbs⟩
  cases hk : p.kind <;> cases as <;> simp only [bind, hk, reduceCtorEq] at h
  case positionalOnly.nil =>
    obtain ⟨d, hd, h⟩ := Option.bind_eq_some_iff.mp h
    obtain ⟨bs', hbs, rfl⟩ := Option.map_eq_some_iff.mp h
    exact ⟨_, _, _, bs', rfl, .default (by rw [hk]; rfl) (by simp [Parameter.takesKeyword, hk, ParameterKind.takesKeyword]) hd, hbs⟩
  case positionalOnly.cons a as =>
    obtain ⟨bs', hbs, rfl⟩ := Option.map_eq_some_iff.mp h
    exact ⟨_, _, _, bs', rfl, .positional (.inl hk), hbs⟩
  case positionalOrKeyword.cons a as =>
    split at h
    · exact absurd h (by simp)
    · rename_i hl
      obtain ⟨bs', hbs, rfl⟩ := Option.map_eq_some_iff.mp h
      exact ⟨_, _, _, bs', rfl, .positional (.inr ⟨hk, Option.not_isSome_iff_eq_none.mp hl⟩), hbs⟩
  case varKeyword.nil =>
    obtain ⟨bs', hbs, rfl⟩ := Option.map_eq_some_iff.mp h
    exact ⟨_, _, _, bs', rfl, .varKeyword hk, hbs⟩
  case positionalOrKeyword.nil | keywordOnly.nil => exact byKeyword (by rw [Parameter.takesKeyword, hk]; rfl) h
  all_goals
    obtain ⟨bs', hbs, rfl⟩ := Option.map_eq_some_iff.mp h
    exact ⟨_, _, _, bs', rfl, .varPositional hk, hbs⟩

theorem BindsTo.isStar {p : Parameter ν δ} {as as' : List α} {kws kws' : List (ν × α)} {b : Bound ν δ α}
    (h : BindsTo p as kws b as' kws') : b.isStar = p.kind.isVariadic := by
  cases h with
  | positional hk => rcases hk with hk | ⟨hk, -⟩ <;> rw [hk] <;> rfl
  | keyword hk _ => rw [isVariadic_of_takesKeyword hk]; rfl
  | default hv _ _ => rw [hv]; rfl
  | varPositional hk => rw [hk]; rfl
  | varKeyword hk => rw [hk]; rfl

theorem bind_isStar {ps : List (Parameter ν δ)} {as : List α} {kws : List (ν × α)} {bs : List (Bound ν δ α)}
    (h : bind ps as kws = some bs) : bs.map (·.isStar) = ps.map (·.kind.isVariadic) := by
  induction ps generalizing as kws bs with
  | nil =>
    cases as with
    | nil => cases kws with
      | nil => cases h; rfl
      | cons => exact absurd h (by simp [bind])
    | cons => exact absurd h (by simp [bind])
  | cons p ps ih =>
    obtain ⟨b, as', kws', bs', rfl, hb, hbs⟩ := bind_cons h
    rw [List.map_cons, List.map_cons, hb.isStar, ih hbs]

/-! ## The order of the keywords -/

/-- The keywords in the order of their parameters, what goes to `**kwargs` last. -/
def parameterOrder (ps : List (Parameter ν δ)) (kws : List (ν × α)) : List (ν × α) :=
  ((ps.filter Parameter.takesKeyword).filterMap fun p => kws.find? (·.1 = p.name)) ++
    kws.filter fun k => ∀ p ∈ ps, p.takesKeyword = true → p.name ≠ k.1

theorem find?_without {name other : ν} (h : other ≠ name) (kws : List (ν × α)) :
    (without name kws).find? (·.1 = other) = kws.find? (·.1 = other) := by
  rw [without, List.find?_filter]
  congr 1
  funext k
  by_cases hk : k.1 = other <;> simp [hk, h]

theorem find?_of_lookup {name : ν} {kws : List (ν × α)} :
    kws.find? (·.1 = name) = (kws.lookup name).map fun a => (name, a) := by
  induction kws with
  | nil => rfl
  | cons k kws ih =>
    rw [lookup_cons_eq]
    by_cases h : k.1 = name
    · subst h
      simp
    · simp [h, ih]

theorem ne_of_lookup_none {name : ν} {kws : List (ν × α)} (h : kws.lookup name = none) (k : ν × α) (hk : k ∈ kws) :
    name ≠ k.1 := by
  have := List.find?_eq_none.mp (find?_of_lookup.trans (congrArg _ h)) k hk
  simpa [eq_comm] using this

theorem without_of_lookup_none {name : ν} {kws : List (ν × α)} (h : name ∉ kws.map (·.1)) : without name kws = kws := by
  rw [without, List.filter_eq_self]
  intro k hk
  have : k.1 ≠ name := fun e => h (e ▸ List.mem_map_of_mem hk)
  simpa using this

theorem perm_without {name : ν} {a : α} : ∀ {kws : List (ν × α)}, (kws.map (·.1)).Nodup → kws.lookup name = some a →
    ((name, a) :: without name kws).Perm kws
  | k :: kws, hkws, h => by
    obtain ⟨hk, hkws⟩ := List.nodup_cons.mp hkws
    rw [lookup_cons_eq] at h
    by_cases heq : k.1 = name
    · subst heq
      rw [if_pos rfl, Option.some.injEq] at h
      subst h
      have : without k.1 (k :: kws) = without k.1 kws := by simp [without]
      rw [this, without_of_lookup_none hk]
    · rw [if_neg heq] at h
      have : without name (k :: kws) = k :: without name kws := by simp [without, heq]
      rw [this]
      exact (List.Perm.swap _ _ _).trans ((perm_without hkws h).cons k)

theorem parameterOrder_done (kws : List (ν × α)) : parameterOrder ([] : List (Parameter ν δ)) kws = kws := by
  simp [parameterOrder]

theorem parameterOrder_skip {p : Parameter ν δ} {ps : List (Parameter ν δ)} {kws : List (ν × α)}
    (h : p.takesKeyword = true → kws.lookup p.name = none) : parameterOrder (p :: ps) kws = parameterOrder ps kws := by
  rw [parameterOrder, parameterOrder]
  by_cases hk : p.takesKeyword = true
  · have hnone := h hk
    rw [List.filter_cons_of_pos hk, List.filterMap_cons_none (by rw [find?_of_lookup, hnone]; rfl)]
    congr 1
    refine List.filter_congr fun k hmem => ?_
    simp [hk, ne_of_lookup_none hnone k hmem]
  · rw [List.filter_cons_of_neg hk]
    simp [hk]

theorem parameterOrder_take {p : Parameter ν δ} {ps : List (Parameter ν δ)} {kws : List (ν × α)} {a : α}
    (hk : p.takesKeyword = true) (ha : kws.lookup p.name = some a) (hname : p.name ∉ ps.map (·.name)) :
    parameterOrder (p :: ps) kws = (p.name, a) :: parameterOrder ps (without p.name kws) := by
  rw [parameterOrder, parameterOrder, List.filter_cons_of_pos hk,
    List.filterMap_cons_some (by rw [find?_of_lookup, ha]; rfl), List.cons_append]
  congr 2
  · refine List.filterMap_congr fun q hq => ?_
    refine (find?_without (fun h => hname ?_) kws).symm
    exact h ▸ List.mem_map_of_mem (List.mem_of_mem_filter hq)
  · rw [without, List.filter_filter]
    refine List.filter_congr fun k _ => ?_
    rw [Bool.eq_iff_iff]
    simp only [List.mem_cons, forall_eq_or_imp, hk, true_imp_iff, decide_eq_true_eq, Bool.and_eq_true]
    rw [and_comm, ne_comm]

theorem values_of_bind {ps : List (Parameter ν δ)} (hnames : (ps.map (·.name)).Nodup) (hordered : ps.Pairwise Parameter.Before)
    {as : List α} {kws : List (ν × α)} {bs : List (Bound ν δ α)} (h : bind ps as kws = some bs) :
    bs.flatMap Bound.values = as ++ (parameterOrder ps kws).map (·.2) := by
  induction ps generalizing as kws bs with
  | nil =>
    cases as with
    | nil => cases kws with
      | nil => cases h; rfl
      | cons => exact absurd h (by simp [bind])
    | cons => exact absurd h (by simp [bind])
  | cons p ps ih =>
    obtain ⟨hname, hnames⟩ := List.nodup_cons.mp hnames
    obtain ⟨hbefore, hordered⟩ := List.pairwise_cons.mp hordered
    obtain ⟨b, as', kws', bs', rfl, hb, hbs⟩ := bind_cons h
    rw [List.flatMap_cons, ih hnames hordered hbs]
    cases hb with
    | positional hk =>
      rw [parameterOrder_skip fun ht => ?_]
      · rfl
      · rcases hk with hk | ⟨-, hl⟩
        · rw [Parameter.takesKeyword, hk] at ht
          exact absurd ht (by decide)
        · exact hl
    | keyword hk ha =>
      rw [parameterOrder_take hk ha hname]
      rfl
    | default _ hk _ =>
      rw [parameterOrder_skip hk]
      rfl
    | varPositional hk =>
      rw [parameterOrder_skip (by simp [Parameter.takesKeyword, hk, ParameterKind.takesKeyword])]
      simp [Bound.values]
    | varKeyword hk =>
      -- nothing stands after `**kwargs`
      have hps : ps = [] := List.eq_nil_iff_forall_not_mem.mpr fun q hq => by
        rcases hbefore q hq with hlt | ⟨-, hv⟩
        · rw [hk] at hlt
          cases hq : q.kind <;> simp [hq, ParameterKind.rank] at hlt
        · rw [hk] at hv
          exact absurd hv (by decide)
      subst hps
      rw [parameterOrder_skip (by simp [Parameter.takesKeyword, hk, ParameterKind.takesKeyword]), parameterOrder_done, parameterOrder_done]
      simp [Bound.values]

theorem parameterOrder_perm {ps : List (Parameter ν δ)} (hnames : (ps.map (·.name)).Nodup) {kws : List (ν × α)}
    (hkws : (kws.map (·.1)).Nodup) : (parameterOrder ps kws).Perm kws := by
  induction ps generalizing kws with
  | nil => rw [parameterOrder_done]
  | cons p ps ih =>
    obtain ⟨hname, hnames⟩ := List.nodup_cons.mp hnames
    by_cases hk : p.takesKeyword = true
    · cases ha : kws.lookup p.name with
      | none =>
        rw [parameterOrder_skip fun _ => ha]
        exact ih hnames hkws
      | some a =>
        rw [parameterOrder_take hk ha hname]
        refine ((ih hnames (hkws.sublist ((List.filter_sublist).map _))).cons _).trans ?_
        exact perm_without hkws ha
    · rw [parameterOrder_skip fun h => absurd h hk]
      exact ih hnames hkws

end

end PythonCall
