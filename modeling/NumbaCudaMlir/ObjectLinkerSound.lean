import Mathlib.Logic.Equiv.List
import NumbaCudaMlir.ObjectLinker

/-!
# What a link is made of

A copied linker holds the first occurrences of what it was copied from; every
linker of a run refines the record of what was added to it.
-/

namespace NumbaCudaMlir.ObjectLinker

open FirstOccurrence Mangler

theorem eq_ltoir {o : ObjectCode} (h : o.isLtoir = true) : o = ⟨.ltoir, o.code⟩ := by
  obtain ⟨codeType, code⟩ := o
  have hc : codeType = .ltoir := by simpa [ObjectCode.isLtoir] using h
  rw [hc]

theorem mem_ltoirsOf {os : List ObjectCode} {x : Bytes} : x ∈ ltoirsOf os ↔ ⟨.ltoir, x⟩ ∈ os := by
  simp only [ltoirsOf, List.mem_map, List.mem_filter]
  constructor
  · rintro ⟨o, ⟨ho, hl⟩, rfl⟩
    exact eq_ltoir hl ▸ ho
  · intro h
    exact ⟨_, ⟨h, rfl⟩, rfl⟩

theorem ltoirsOf_append (os os' : List ObjectCode) : ltoirsOf (os ++ os') = ltoirsOf os ++ ltoirsOf os' := by
  simp [ltoirsOf]

theorem ltoirsOf_ltoir (x : Bytes) : ltoirsOf [⟨.ltoir, x⟩] = [x] := rfl

theorem ltoirsOf_other {o : ObjectCode} (h : o.isLtoir = false) : ltoirsOf [o] = [] := by
  simp [ltoirsOf, h]

theorem ltoirsOf_keepFirst (os : List ObjectCode) :
    ltoirsOf (keepFirst ObjectCode.isLtoir os) = keepFirst (fun _ => true) (ltoirsOf os) := by
  induction os using List.reverseRecOn with
  | nil => rfl
  | append_singleton os o ih =>
    rw [keepFirst_snoc, ltoirsOf_append]
    cases hl : o.isLtoir with
    | false => rw [keep_free _ hl, ltoirsOf_append, ltoirsOf_other hl, List.append_nil, List.append_nil, ih]
    | true =>
      obtain ⟨x, rfl⟩ : ∃ x, o = ⟨.ltoir, x⟩ := ⟨_, eq_ltoir hl⟩
      rw [ltoirsOf_ltoir, keepFirst_snoc, ← ih]
      by_cases hmem : ⟨.ltoir, x⟩ ∈ keepFirst ObjectCode.isLtoir os
      · rw [keep_seen _ hl hmem, keep_seen _ rfl (mem_ltoirsOf.mpr hmem)]
      · rw [keep_new _ hmem, keep_new _ fun h => hmem (mem_ltoirsOf.mp h), ltoirsOf_append, ltoirsOf_ltoir]

variable {Config : Type} (env : Env Config)

/-! ## The table of LTO-IRs -/

/-- Every entry of the table is an object of the linker, under its hash. -/
def Tracks (l : Linker Config) : Prop := ∀ e ∈ l.ltoirs.entries, e.1 = env.hash e.2 ∧ ⟨.ltoir, e.2⟩ ∈ l.objectCodes

variable {env}

theorem get_isSome_iff {l : Linker Config} (h : Tracks env l) (x : Bytes) :
    (l.ltoirs.get (env.hash x)).isSome = true ↔ x ∈ l.ltoirs.values := by
  rw [Option.isSome_iff_exists]
  constructor
  · intro ⟨y, hy⟩
    have hxy : x = y := env.hash_injective (h _ (Dict.mem_of_get hy)).1
    exact hxy ▸ Dict.mem_values_of_get hy
  · intro hx
    obtain ⟨e, he, rfl⟩ := List.mem_map.mp hx
    exact ⟨e.2, Dict.get_eq_some_iff.mpr ((h e he).1 ▸ he)⟩

theorem get_eq_none {l : Linker Config} (h : Tracks env l) {x : Bytes} (hx : x ∉ l.ltoirs.values) :
    l.ltoirs.get (env.hash x) = none :=
  Option.not_isSome_iff_eq_none.mp fun hs => hx ((get_isSome_iff h x).mp hs)

theorem values_append (l : Linker Config) (h : Tracks env l) {x : Bytes} (hx : x ∉ l.ltoirs.values) :
    (l.appendLtoir env x).ltoirs.values = l.ltoirs.values ++ [x] := by
  unfold Linker.appendLtoir Dict.values
  rw [Dict.entries_set_new (get_eq_none h hx), List.map_append]
  rfl

theorem tracks_append {l : Linker Config} (h : Tracks env l) (x : Bytes) : Tracks env (l.appendLtoir env x) := by
  intro e he
  rcases Dict.mem_set_iff.mp he with rfl | ⟨he, -⟩
  · exact ⟨rfl, List.mem_append_right _ (List.mem_singleton_self _)⟩
  · exact ⟨(h e he).1, List.mem_append_left _ (h e he).2⟩

theorem tracks_addObject {l : Linker Config} (h : Tracks env l) (o : ObjectCode) : Tracks env (l.addObject o) :=
  fun e he => ⟨(h e he).1, List.mem_append_left _ (h e he).2⟩

theorem tracks_materialize {l : Linker Config} (h : Tracks env l) : Tracks env (l.materializePendingCu env) :=
  fun e he => ⟨(h e he).1, List.mem_append_left _ (h e he).2⟩

/-! ## Copies -/

variable (env)

/-- A linker made by adding objects one by one to a new one. -/
structure CopyOf (config : Config) (lto : Bool) (os : List ObjectCode) (l : Linker Config) : Prop where
  config : l.config = config
  lto : l.lto = (lto || os.any ObjectCode.isLtoir)
  hasLtoir : l.hasLtoir = os.any ObjectCode.isLtoir
  objectCodes : l.objectCodes = keepFirst ObjectCode.isLtoir os
  pendingCu : l.pendingCu = []
  values : l.ltoirs.values = ltoirsOf l.objectCodes
  tracks : Tracks env l
  compiled : l.compiled = []

variable {env} {config : Config} {lto : Bool} {os : List ObjectCode} {l : Linker Config}

theorem copyOf_new (config : Config) (lto : Bool) : CopyOf env config lto [] (Linker.new config lto) :=
  ⟨rfl, by simp [Linker.new], rfl, rfl, rfl, rfl, fun _ he => absurd he List.not_mem_nil, rfl⟩

theorem copyOf_addObject (h : CopyOf env config lto os l) {o : ObjectCode} (ho : o.isLtoir = false) :
    CopyOf env config lto (os ++ [o]) (l.addObject o) where
  config := h.config
  lto := by simpa [ho] using h.lto
  hasLtoir := by simpa [ho] using h.hasLtoir
  objectCodes := by rw [keepFirst_snoc, keep_free _ ho, ← h.objectCodes]; rfl
  pendingCu := h.pendingCu
  values := by
    rw [Linker.addObject, ltoirsOf_append, ltoirsOf_other ho, List.append_nil]
    exact h.values
  tracks := tracks_addObject h.tracks o
  compiled := h.compiled

theorem copyOf_seen (h : CopyOf env config lto os l) {x : Bytes} (hx : x ∈ l.ltoirs.values) :
    CopyOf env config lto (os ++ [⟨.ltoir, x⟩]) l := by
  have hos : ⟨.ltoir, x⟩ ∈ os := by
    rw [h.values, mem_ltoirsOf, h.objectCodes, mem_keepFirst] at hx
    exact hx
  have hany : os.any ObjectCode.isLtoir = true := List.any_eq_true.mpr ⟨_, hos, rfl⟩
  exact { h with
    lto := by rw [h.lto, List.any_append, hany]; rfl
    hasLtoir := by rw [h.hasLtoir, List.any_append, hany]; rfl
    objectCodes := by rw [h.objectCodes, keepFirst_snoc_seen _ rfl hos] }

theorem copyOf_append (h : CopyOf env config lto os l) (hlto : l.lto = true) {x : Bytes} (hx : x ∉ l.ltoirs.values) :
    CopyOf env config lto (os ++ [⟨.ltoir, x⟩]) (l.appendLtoir env x) where
  config := h.config
  lto := by
    have hl : (l.appendLtoir env x).lto = true := hlto
    simp [hl, ObjectCode.isLtoir]
  hasLtoir := by simp [Linker.appendLtoir, ObjectCode.isLtoir]
  objectCodes := by
    have hmem : ⟨.ltoir, x⟩ ∉ keepFirst ObjectCode.isLtoir os := by
      rw [← h.objectCodes, ← mem_ltoirsOf, ← h.values]
      exact hx
    rw [keepFirst_snoc, keep_new _ hmem, ← h.objectCodes]
    rfl
  pendingCu := h.pendingCu
  values := by
    rw [values_append l h.tracks hx, Linker.appendLtoir, ltoirsOf_append, ltoirsOf_ltoir, h.values]
  tracks := tracks_append h.tracks x
  compiled := h.compiled

theorem copyOf_addLtoirOn (x : Bytes) (h : CopyOf env config true os l) :
    CopyOf env config true (os ++ [⟨.ltoir, x⟩]) (l.addLtoirOn env x) := by
  unfold Linker.addLtoirOn
  split_ifs with hs
  · exact copyOf_seen h ((get_isSome_iff h.tracks x).mp hs)
  · exact copyOf_append h h.lto fun hx => hs ((get_isSome_iff h.tracks x).mpr hx)

theorem setDefault_noop {d : Dict Int Bytes} : ∀ (es : List (Int × Bytes)), (∀ e ∈ es, (d.get e.1).isSome = true) →
    es.foldl (fun d e => d.setDefault e.1 e.2) d = d
  | [], _ => rfl
  | e :: es, h => by
    obtain ⟨w, hw⟩ := Option.isSome_iff_exists.mp (h e List.mem_cons_self)
    rw [List.foldl_cons, Dict.setDefault_bound hw]
    exact setDefault_noop es fun e' he' => h e' (List.mem_cons_of_mem _ he')

section
variable {add : Linker Config → Bytes → Linker Config}
  (hadd : ∀ os l x, CopyOf env config lto os l → CopyOf env config lto (os ++ [⟨.ltoir, x⟩]) (add l x))
include hadd

theorem copyOf_foldl : ∀ (rest os : List ObjectCode) (l : Linker Config), CopyOf env config lto os l →
    CopyOf env config lto (os ++ rest) (rest.foldl (fun n o => if o.isLtoir then add n o.code else n.addObject o) l)
  | [], os, l, h => by simpa using h
  | o :: rest, os, l, h => by
    rw [List.append_cons]
    refine copyOf_foldl rest (os ++ [o]) _ ?_
    cases ho : o.isLtoir with
    | false => simpa [ho] using copyOf_addObject h ho
    | true => simpa [ho, ← eq_ltoir ho] using hadd os l o.code h

theorem copyOf_recreate (l : Linker Config) (htracks : Tracks env l) (hconfig : l.config = config) (ltoirOnly : Bool)
    (kernelLtoir : Option Bytes) :
    CopyOf env config lto (kernelLtoir.toList.map (⟨.ltoir, ·⟩) ++
      (l.materializePendingCu env).objectCodes.filter fun o => !ltoirOnly || o.isLtoir)
      (Linker.recreate env add l lto ltoirOnly kernelLtoir) := by
  have hfresh : CopyOf env config lto (kernelLtoir.toList.map (⟨.ltoir, ·⟩))
      (kernelLtoir.elim (Linker.new l.config lto) (add (Linker.new l.config lto))) := by
    rw [hconfig]
    cases kernelLtoir with
    | none => exact copyOf_new config lto
    | some k => exact hadd [] _ k (copyOf_new config lto)
  have hcopied := copyOf_foldl hadd ((l.materializePendingCu env).objectCodes.filter fun o => !ltoirOnly || o.isLtoir) _ _ hfresh
  unfold Linker.recreate
  simp only
  rw [setDefault_noop]
  · exact hcopied
  · intro e he
    obtain ⟨hhash, hmem⟩ := tracks_materialize htracks e he
    rw [hhash, get_isSome_iff hcopied.tracks, hcopied.values, mem_ltoirsOf, hcopied.objectCodes, mem_keepFirst]
    exact List.mem_append_right _ (List.mem_filter.mpr ⟨hmem, by simp [ObjectCode.isLtoir]⟩)

end

theorem copyOf_recreateOn (l : Linker Config) (htracks : Tracks env l) (ltoirOnly : Bool) (kernelLtoir : Option Bytes) :
    CopyOf env l.config true (kernelLtoir.toList.map (⟨.ltoir, ·⟩) ++
      (l.materializePendingCu env).objectCodes.filter fun o => !ltoirOnly || o.isLtoir)
      (Linker.recreate env (Linker.addLtoirOn env) l true ltoirOnly kernelLtoir) :=
  copyOf_recreate (fun _ _ x h => copyOf_addLtoirOn x h) l htracks rfl ltoirOnly kernelLtoir

theorem copyOf_becomeLto (htracks : Tracks env l) :
    CopyOf env l.config true (l.materializePendingCu env).objectCodes
      { l.becomeLto env with compiled := [] } := by
  have h := copyOf_recreateOn l htracks false none
  have hfilter : (l.materializePendingCu env).objectCodes.filter (fun o => !false || o.isLtoir) =
      (l.materializePendingCu env).objectCodes := List.filter_eq_self.mpr fun _ _ => rfl
  rw [hfilter] at h
  exact { config := h.config, lto := h.lto, hasLtoir := h.hasLtoir, objectCodes := h.objectCodes, pendingCu := h.pendingCu,
          values := h.values, tracks := h.tracks, compiled := rfl }

theorem becomeLto_compiled (l : Linker Config) : (l.becomeLto env).compiled = (l.materializePendingCu env).compiled := rfl

theorem any_keepFirst (os : List ObjectCode) : (keepFirst ObjectCode.isLtoir os).any ObjectCode.isLtoir = os.any ObjectCode.isLtoir := by
  rw [Bool.eq_iff_iff, List.any_eq_true, List.any_eq_true]
  exact exists_congr fun o => by rw [mem_keepFirst]

theorem copyOf_keepFirst (h : CopyOf env config lto (keepFirst ObjectCode.isLtoir os) l) : CopyOf env config lto os l :=
  { h with
    lto := by rw [h.lto, any_keepFirst]
    hasLtoir := by rw [h.hasLtoir, any_keepFirst]
    objectCodes := by rw [h.objectCodes, keepFirst_idem] }

theorem copyOf_addLtoir (x : Bytes) (h : CopyOf env config lto os l) :
    CopyOf env config lto (os ++ [⟨.ltoir, x⟩]) (l.addLtoir env x) := by
  unfold Linker.addLtoir
  split_ifs with hs hlto
  · exact copyOf_seen h ((get_isSome_iff h.tracks x).mp hs)
  · exact copyOf_append h hlto fun hx => hs ((get_isSome_iff h.tracks x).mpr hx)
  · have hcompiled : (l.becomeLto env).compiled = [] := by
      rw [becomeLto_compiled, Linker.materializePendingCu, h.compiled, h.pendingCu]
      rfl
    have hcopy := copyOf_becomeLto h.tracks
    have hobjects : (l.materializePendingCu env).objectCodes = keepFirst ObjectCode.isLtoir os := by
      rw [Linker.materializePendingCu, h.pendingCu, ← h.objectCodes]
      simp
    rw [hobjects] at hcopy
    have hturned : CopyOf env config true os (l.becomeLto env) :=
      { copyOf_keepFirst hcopy with config := hcopy.config.trans h.config, compiled := hcompiled }
    have hx : x ∉ (l.becomeLto env).ltoirs.values := by
      rw [hturned.values, hturned.objectCodes, ← h.objectCodes, ← h.values]
      exact fun hx => hs ((get_isSome_iff h.tracks x).mpr hx)
    have hnew := copyOf_append hturned hturned.lto hx
    exact { hnew with lto := by rw [hnew.lto, List.any_append]; simp [ObjectCode.isLtoir] }

/-! ## Refinement -/

variable (env)

/-- A source of the linker is compiled to it, as LTO-IR. -/
def FromSource (m : Manifest Config) (o : ObjectCode) : Prop :=
  ∃ s, Input.source s ∈ m.inputs ∧ s.2 = true ∧ env.objectOf m.config s = o

structure Refines (l : Linker Config) (m : Manifest Config) : Prop where
  config : l.config = m.config
  lto : l.lto = m.lto
  pending : l.pendingCu = m.deferred
  sources : l.compiled ++ l.pendingCu = m.sources
  tracks : Tracks env l
  known : l.ltoirs.values = m.ltoirs
  hasLtoir : l.hasLtoir = l.objectCodes.any ObjectCode.isLtoir
  inOrder : l.objectCodes.Sublist (m.inputs.map (Input.code env m.config))
  kept : keepFirst ObjectCode.isLtoir l.objectCodes = keepFirst ObjectCode.isLtoir (m.inputs.map (Input.code env m.config))
  repeated : ∀ o, o.isLtoir = true → 1 < l.objectCodes.count o → FromSource env m o
  untracked : ∀ x, ⟨.ltoir, x⟩ ∈ l.objectCodes → x ∉ l.ltoirs.values → FromSource env m ⟨.ltoir, x⟩
  turned : l.ltoirs.values ≠ [] → l.lto = true
  kernel : ∀ k, m.kernel = some k → l.objectCodes.head? = some ⟨.ltoir, k⟩

variable {env} {m : Manifest Config}

theorem head?_append_of_head? {α : Type} {xs ys : List α} {x : α} (h : xs.head? = some x) : (xs ++ ys).head? = some x := by
  rw [List.head?_append, h]
  rfl

theorem refines_new (config : Config) (lto : Bool) : Refines env (Linker.new config lto) (Manifest.new config lto) where
  config := rfl
  lto := rfl
  pending := rfl
  sources := rfl
  tracks := fun _ he => absurd he List.not_mem_nil
  known := rfl
  hasLtoir := rfl
  inOrder := List.Sublist.refl _
  kept := rfl
  repeated := fun _ _ h => absurd h (by simp [Linker.new])
  untracked := fun _ h => absurd h List.not_mem_nil
  turned := fun h => absurd rfl h
  kernel := fun _ h => by cases h

theorem FromSource.mono {m m' : Manifest Config} {o : ObjectCode} (h : FromSource env m o) (hconfig : m'.config = m.config)
    (hinputs : ∀ i ∈ m.inputs, i ∈ m'.inputs) : FromSource env m' o := by
  obtain ⟨s, hs, hmode, ho⟩ := h
  exact ⟨s, hinputs _ hs, hmode, hconfig ▸ ho⟩

theorem refines_place (h : Refines env l m) {o : ObjectCode} (ho : o.isLtoir = false) :
    Refines env (l.addObject o) (m.place o) where
  config := h.config
  lto := h.lto
  pending := h.pending
  sources := h.sources
  tracks := tracks_addObject h.tracks o
  known := h.known
  hasLtoir := by simp [h.hasLtoir, Linker.addObject, ho]
  inOrder := by
    rw [Manifest.place, List.map_append]
    exact h.inOrder.append (List.Sublist.refl _)
  kept := by
    rw [Manifest.place, List.map_append]
    exact keepFirst_append_congr _ h.kept _
  repeated := fun o' ho' hcount => by
    have hne : o ≠ o' := fun he => by simp [he, ho'] at ho
    rw [Linker.addObject, List.count_append, List.count_singleton, if_neg (by simpa using hne)] at hcount
    exact (h.repeated o' ho' hcount).mono rfl fun _ hi => List.mem_append_left _ hi
  untracked := fun x hx htable => by
    have hne : (⟨.ltoir, x⟩ : ObjectCode) ≠ o := fun he => by simp [← he, ObjectCode.isLtoir] at ho
    have hold : ⟨.ltoir, x⟩ ∈ l.objectCodes := (List.mem_append.mp hx).resolve_right fun hs => hne (List.mem_singleton.mp hs)
    exact (h.untracked x hold htable).mono rfl fun _ hi => List.mem_append_left _ hi
  turned := h.turned
  kernel := fun k hk => head?_append_of_head? (h.kernel k hk)

theorem refines_defer (h : Refines env l m) (s : CuSource) :
    Refines env { l with pendingCu := l.pendingCu ++ [s] } (m.defer s) :=
  { h with
    pending := by simp [Manifest.defer, h.pending]
    sources := by simp [Manifest.defer, ← h.sources] }

theorem map_code_source (config : Config) (ss : List CuSource) :
    (ss.map Input.source).map (Input.code env config) = ss.map (env.objectOf config) := by
  rw [List.map_map]
  rfl

theorem refines_materialize (h : Refines env l m) : Refines env (l.materializePendingCu env) m.compile := by
  have hcodes : m.compile.inputs.map (Input.code env m.compile.config) =
      m.inputs.map (Input.code env m.config) ++ l.pendingCu.map (env.objectOf l.config) := by
    rw [h.pending, h.config, ← map_code_source, ← List.map_append]
    rfl
  have hsource : ∀ o ∈ l.pendingCu.map (env.objectOf l.config), o.isLtoir = true → FromSource env m.compile o := by
    intro o ho hl
    obtain ⟨s, hs, rfl⟩ := List.mem_map.mp ho
    refine ⟨s, List.mem_append_right _ (List.mem_map_of_mem (h.pending ▸ hs)), ?_, by rw [h.config]; rfl⟩
    by_contra hmode
    simp [Env.objectOf, ObjectCode.isLtoir, hmode] at hl
  exact
    { config := h.config
      lto := h.lto
      pending := rfl
      sources := (List.append_nil _).trans h.sources
      tracks := tracks_materialize h.tracks
      known := h.known
      hasLtoir := by
        have hpending : (l.pendingCu.map (env.objectOf l.config)).any ObjectCode.isLtoir = l.pendingCu.any (·.2) := by
          rw [List.any_map]
          congr 1
          funext s
          cases hs : s.2 <;> simp [Env.objectOf, ObjectCode.isLtoir, hs]
        simp only [Linker.materializePendingCu, List.any_append, hpending, h.hasLtoir]
      inOrder := by
        rw [hcodes]
        exact h.inOrder.append (List.Sublist.refl _)
      kept := by
        rw [hcodes]
        exact keepFirst_append_congr _ h.kept _
      repeated := fun o ho hcount => by
        by_cases hnew : o ∈ l.pendingCu.map (env.objectOf l.config)
        · exact hsource o hnew ho
        · have hold : 1 < l.objectCodes.count o := by
            rw [Linker.materializePendingCu, List.count_append, List.count_eq_zero_of_not_mem hnew] at hcount
            exact hcount
          exact (h.repeated o ho hold).mono rfl fun _ hi => List.mem_append_left _ hi
      untracked := fun x hx htable => by
        rcases List.mem_append.mp hx with hold | hnew
        · exact (h.untracked x hold htable).mono rfl fun _ hi => List.mem_append_left _ hi
        · exact hsource _ hnew rfl
      turned := h.turned
      kernel := fun k hk => head?_append_of_head? (h.kernel k hk) }

theorem refines_becomeLto (h : Refines env l m) : Refines env (l.becomeLto env) (m.turnLto env) := by
  have hmat := refines_materialize h
  have hcopy := copyOf_becomeLto h.tracks
  have hcount : ∀ o, o.isLtoir = true → (l.becomeLto env).objectCodes.count o ≤ 1 := fun o ho =>
    hcopy.objectCodes ▸ count_keepFirst_le _ ho _
  exact
    { config := hcopy.config.trans h.config
      lto := hcopy.lto.trans rfl
      pending := hcopy.pendingCu
      sources := by
        have hpending : (l.becomeLto env).pendingCu = [] := hcopy.pendingCu
        rw [hpending, List.append_nil, becomeLto_compiled]
        exact h.sources
      tracks := hcopy.tracks
      known := by
        have hvalues : (l.becomeLto env).ltoirs.values = _ := hcopy.values
        rw [hvalues, hcopy.objectCodes, hmat.kept, ltoirsOf_keepFirst]
        rfl
      hasLtoir := by
        have hflag : (l.becomeLto env).hasLtoir = _ := hcopy.hasLtoir
        have hobjects : (l.becomeLto env).objectCodes = _ := hcopy.objectCodes
        rw [hflag, hobjects, any_keepFirst]
      inOrder := by
        have hobjects : (l.becomeLto env).objectCodes = _ := hcopy.objectCodes
        rw [hobjects]
        exact (keepFirst_sublist _ _).trans hmat.inOrder
      kept := by
        have hobjects : (l.becomeLto env).objectCodes = _ := hcopy.objectCodes
        rw [hobjects, keepFirst_idem]
        exact hmat.kept
      repeated := fun o ho hmany => absurd hmany (Nat.not_lt.mpr (hcount o ho))
      untracked := fun x hx htable => by
        have hvalues : (l.becomeLto env).ltoirs.values = _ := hcopy.values
        rw [hvalues, mem_ltoirsOf] at htable
        exact absurd hx htable
      turned := fun _ => hcopy.lto.trans rfl
      kernel := fun k hk => by
        have hobjects : (l.becomeLto env).objectCodes = _ := hcopy.objectCodes
        rw [hobjects, head?_keepFirst]
        exact hmat.kernel k hk }

theorem map_code_object (config : Config) (os : List ObjectCode) : (os.map Input.object).map (Input.code env config) = os := by
  rw [List.map_map]
  exact List.map_id os

theorem values_appendLtoir (htracks : Tracks env l) (x : Bytes) :
    (l.appendLtoir env x).ltoirs.values = keep (fun _ => true) l.ltoirs.values x := by
  by_cases hx : x ∈ l.ltoirs.values
  · obtain ⟨e, he, rfl⟩ := List.mem_map.mp hx
    have hkey : env.hash e.2 ∈ l.ltoirs.keys :=
      Dict.mem_keys_iff.mpr ⟨e.2, Dict.get_eq_some_iff.mpr ((htracks e he).1 ▸ he)⟩
    have hsame : ∀ d ∈ l.ltoirs.entries, (if d.1 = env.hash e.2 then (env.hash e.2, e.2) else d) = d := by
      intro d hd
      split_ifs with hk
      · have hde : d.2 = e.2 := env.hash_injective ((htracks d hd).1.symm.trans hk)
        rw [← hk, ← hde]
      · rfl
    rw [keep_seen _ rfl hx, Linker.appendLtoir, Dict.values, Dict.set, dif_pos hkey]
    exact congrArg (List.map (·.2)) ((List.map_congr_left hsame).trans (List.map_id _))
  · rw [keep_new _ hx, values_append l htracks hx]

theorem refines_append (h : Refines env l m) (hlto : l.lto = true) {x : Bytes}
    (hx : ⟨.ltoir, x⟩ ∈ l.objectCodes → FromSource env m ⟨.ltoir, x⟩) :
    Refines env (l.appendLtoir env x) { m.place ⟨.ltoir, x⟩ with known := m.known ++ [x] } where
  config := h.config
  lto := h.lto
  pending := h.pending
  sources := h.sources
  tracks := tracks_append h.tracks x
  known := by rw [values_appendLtoir h.tracks, Manifest.ltoirs, keepFirst_snoc, h.known]; rfl
  hasLtoir := by simp [Linker.appendLtoir, ObjectCode.isLtoir]
  inOrder := by
    rw [Manifest.place, List.map_append]
    exact h.inOrder.append (List.Sublist.refl _)
  kept := by
    rw [Manifest.place, List.map_append]
    exact keepFirst_append_congr _ h.kept _
  repeated := fun o ho hcount => by
    refine FromSource.mono (m := m) ?_ rfl fun _ hi => List.mem_append_left _ hi
    by_cases ho' : o = ⟨.ltoir, x⟩
    · subst ho'
      refine hx (List.count_pos_iff.mp ?_)
      rw [Linker.appendLtoir, List.count_append, List.count_singleton_self] at hcount
      omega
    · rw [Linker.appendLtoir, List.count_append, List.count_singleton, if_neg (by simpa using fun he => ho' he.symm)] at hcount
      exact h.repeated o ho hcount
  untracked := fun y hy htable => by
    rw [values_appendLtoir h.tracks, mem_keep, not_or] at htable
    have hold : ⟨.ltoir, y⟩ ∈ l.objectCodes := (List.mem_append.mp hy).resolve_right fun hs => by
      cases List.mem_singleton.mp hs
      exact htable.2 rfl
    exact (h.untracked y hold htable.1).mono rfl fun _ hi => List.mem_append_left _ hi
  turned := fun _ => hlto
  kernel := fun k hk => head?_append_of_head? (h.kernel k hk)

theorem refines_seen (h : Refines env l m) {x : Bytes} (hx : x ∈ l.ltoirs.values) :
    Refines env l { m.place ⟨.ltoir, x⟩ with known := m.known ++ [x] } := by
  obtain ⟨e, he, rfl⟩ := List.mem_map.mp hx
  have hmem : ⟨.ltoir, e.2⟩ ∈ m.inputs.map (Input.code env m.config) := h.inOrder.subset (h.tracks e he).2
  exact { h with
    known := by
      have hknown : e.2 ∈ m.known := (mem_keepFirst _).mp (h.known ▸ hx)
      rw [h.known, Manifest.ltoirs, Manifest.ltoirs, keepFirst_snoc_seen _ rfl hknown]
    inOrder := by
      rw [Manifest.place, List.map_append]
      exact h.inOrder.trans (List.sublist_append_left _ _)
    kept := by
      rw [Manifest.place, List.map_append]
      exact h.kept.trans (keepFirst_snoc_seen _ rfl hmem).symm
    repeated := fun o ho hcount => (h.repeated o ho hcount).mono rfl fun _ hi => List.mem_append_left _ hi
    untracked := fun y hy htable => (h.untracked y hy htable).mono rfl fun _ hi => List.mem_append_left _ hi }

theorem refines_addLtoir (h : Refines env l m) (x : Bytes) : Refines env (l.addLtoir env x) (m.addLtoir env x) := by
  unfold Linker.addLtoir Manifest.addLtoir
  by_cases hs : (l.ltoirs.get (env.hash x)).isSome = true
  · have hx := (get_isSome_iff h.tracks x).mp hs
    have hlto : m.lto = true := h.lto ▸ h.turned (List.ne_nil_of_mem hx)
    rw [if_pos hs, if_pos hlto]
    exact refines_seen h hx
  · have hx : x ∉ l.ltoirs.values := fun hx => hs ((get_isSome_iff h.tracks x).mpr hx)
    rw [if_neg hs, ← h.lto]
    by_cases hlto : l.lto = true
    · rw [if_pos hlto, if_pos hlto]
      exact refines_append h hlto fun hmem => h.untracked x hmem hx
    · rw [if_neg hlto, if_neg hlto]
      have hlinker := refines_becomeLto h
      refine refines_append hlinker hlinker.lto fun hmem => ?_
      have hold : ⟨.ltoir, x⟩ ∈ (l.materializePendingCu env).objectCodes := by
        have hobjects : (l.becomeLto env).objectCodes = _ := (copyOf_becomeLto h.tracks).objectCodes
        rwa [hobjects, mem_keepFirst] at hmem
      exact ((refines_materialize h).untracked x hold hx).mono rfl fun _ hi => hi

theorem refines_merge : ∀ (xs : List Bytes) {l : Linker Config} {m : Manifest Config}, Refines env l m →
    Refines env (xs.foldl (Linker.addLtoir env) l) (xs.foldl (Manifest.addLtoir env) m)
  | [], _, _, h => h
  | x :: xs, _, _, h => refines_merge xs (refines_addLtoir h x)

theorem refines_recreate (h : Refines env l m) (lto ltoirOnly : Bool) (kernelLtoir : Option Bytes) :
    Refines env (l.recreateWithLto env lto ltoirOnly kernelLtoir) (m.recreate env lto ltoirOnly kernelLtoir) := by
  have hmat := refines_materialize h
  have hcopy : CopyOf env m.config lto _ (l.recreateWithLto env lto ltoirOnly kernelLtoir) :=
    copyOf_recreate (fun _ _ x h => copyOf_addLtoir x h) l h.tracks h.config ltoirOnly kernelLtoir
  have hkept : (l.recreateWithLto env lto ltoirOnly kernelLtoir).objectCodes =
      keepFirst ObjectCode.isLtoir (m.copied env ltoirOnly kernelLtoir) := by
    rw [hcopy.objectCodes, Manifest.copied, ← keepFirst_append_keepFirst, ← keepFirst_filter, hmat.kept, keepFirst_filter,
      keepFirst_append_keepFirst]
    rfl
  have hany : (l.recreateWithLto env lto ltoirOnly kernelLtoir).hasLtoir =
      (m.copied env ltoirOnly kernelLtoir).any ObjectCode.isLtoir := by
    rw [hcopy.hasLtoir, ← any_keepFirst, ← hcopy.objectCodes, hkept, any_keepFirst]
  exact
    { config := hcopy.config
      lto := by rw [hcopy.lto, ← hcopy.hasLtoir, hany]; rfl
      pending := hcopy.pendingCu
      sources := by rw [hcopy.compiled, hcopy.pendingCu]; rfl
      tracks := hcopy.tracks
      known := by rw [hcopy.values, hkept, ltoirsOf_keepFirst]; rfl
      hasLtoir := by rw [hany, hkept, any_keepFirst]
      inOrder := by
        rw [hkept, Manifest.recreate, map_code_object]
        exact keepFirst_sublist _ _
      kept := by rw [hkept, Manifest.recreate, map_code_object, keepFirst_idem]
      repeated := fun o ho hmany => absurd hmany (Nat.not_lt.mpr (hkept ▸ count_keepFirst_le _ ho _))
      untracked := fun x hx htable => by
        rw [hcopy.values, mem_ltoirsOf] at htable
        exact absurd hx htable
      turned := fun hne => by
        obtain ⟨x, hx⟩ := List.exists_mem_of_ne_nil _ hne
        rw [hcopy.values, mem_ltoirsOf, hcopy.objectCodes, mem_keepFirst] at hx
        rw [hcopy.lto, List.any_eq_true.mpr ⟨_, hx, rfl⟩, Bool.or_true]
      kernel := fun k hk => by
        obtain rfl : kernelLtoir = some k := hk
        rw [hkept, head?_keepFirst]
        rfl }

/-! ## Items -/

theorem refines_addData (h : Refines env l m) (data : Bytes) (kind : FileKind) :
    Refines env (l.addData env data kind) (m.addData env data l.lto kind) := by
  cases kind with
  | cu => exact refines_defer h (data, l.lto)
  | nvvm => exact refines_addLtoir h data
  | object => exact refines_place h rfl
  | ptx => exact refines_place h rfl
  | library => exact refines_place h rfl
  | cubin => exact refines_place h rfl
  | fatbin => exact refines_place h rfl

theorem pathSuffix_of_cu {path : Text} (h : ['.', 'c', 'u'].isSuffixOf path = true) {ext : String}
    (hext : pathSuffix path = some ext) : ext = "cu" := by
  obtain ⟨stem, rfl⟩ := List.isSuffixOf_iff_suffix.mp h
  have hname : reversedName (stem ++ ['.', 'c', 'u']).reverse = 'u' :: 'c' :: '.' :: (stem.reverse.takeWhile (· ≠ '/')) := by
    simp [reversedName]
  rw [pathSuffix, hname] at hext
  simp only [List.takeWhile_cons] at hext
  rw [Option.ite_none_right_eq_some] at hext
  exact (Option.some.inj hext.2).symm

theorem kind_of_cudaSource {ignoreNonlto : Bool} {item : LinkItem} (hcuda : linkItemIsCudaSource item = true) {data : Bytes}
    {kind : FileKind} (h : Linker.resolveItem env ignoreNonlto item = .ok (some (data, kind))) : kind = .cu := by
  cases item with
  | other => cases hcuda
  | code code =>
    have hkind : code.kind = .cu := code.cuSource_kind (by simpa [linkItemIsCudaSource] using hcuda)
    rw [Linker.resolveItem, if_pos hkind] at h
    cases h
    rfl
  | path path =>
    rw [Linker.resolveItem] at h
    cases hext : pathSuffix path with
    | none => rw [hext] at h; cases h
    | some ext =>
      have hcu : ext = "cu" := pathSuffix_of_cu hcuda hext
      rw [hext, hcu] at h
      cases hread : env.cachedFileRead path with
      | none => simp [hread] at h
      | some read =>
        simp only [hread, Except.ok.injEq, Option.some.injEq, Prod.mk.injEq] at h
        exact h.2.symm

theorem addFile_ok {ignoreNonlto : Bool} {item : LinkItem} (l : Linker Config) {data : Bytes} {kind : FileKind}
    (h : Linker.resolveItem env ignoreNonlto item = .ok (some (data, kind))) :
    l.addFile env item ignoreNonlto = .ok (l.addData env data kind) := by
  rw [Linker.addFile, h]
  rfl

theorem addFile_skip {ignoreNonlto : Bool} {item : LinkItem} (l : Linker Config)
    (h : ∀ data kind, Linker.resolveItem env ignoreNonlto item ≠ .ok (some (data, kind))) :
    (∃ e, l.addFile env item ignoreNonlto = .error e) ∨ l.addFile env item ignoreNonlto = .ok l := by
  rw [Linker.addFile]
  match hr : Linker.resolveItem env ignoreNonlto item with
  | .error e => exact .inl ⟨e, rfl⟩
  | .ok none => exact .inr rfl
  | .ok (some (data, kind)) => exact absurd hr (h data kind)

theorem addFileGuessExt_other (l : Linker Config) {item : LinkItem} (hcuda : linkItemIsCudaSource item = false)
    (ignoreNonlto : Bool) (compileCuAsLtoir : Option Bool) :
    l.addFileGuessExt env item ignoreNonlto compileCuAsLtoir = l.addFile env item ignoreNonlto := by
  unfold Linker.addFileGuessExt
  rw [hcuda]
  cases compileCuAsLtoir <;> rfl

theorem refines_addItem_added (h : Refines env l m) {item : LinkItem} {ignoreNonlto : Bool} {data : Bytes} {kind : FileKind}
    (hr : Linker.resolveItem env ignoreNonlto item = .ok (some (data, kind))) (compileCuAsLtoir : Option Bool) :
    Refines env ((l.addFileGuessExt env item ignoreNonlto compileCuAsLtoir).toOption.getD l)
      (m.addData env data (m.mode item compileCuAsLtoir) kind) := by
  cases hcuda : linkItemIsCudaSource item with
  | false =>
    have hmode : m.mode item compileCuAsLtoir = l.lto := by simp [Manifest.mode, hcuda, h.lto]
    rw [addFileGuessExt_other l hcuda, addFile_ok l hr, hmode]
    exact refines_addData h data kind
  | true =>
    cases compileCuAsLtoir with
    | none =>
      have hmode : m.mode item none = l.lto := by simp [Manifest.mode, h.lto]
      have hadd : l.addFileGuessExt env item ignoreNonlto none = l.addFile env item ignoreNonlto := rfl
      rw [hadd, addFile_ok l hr, hmode]
      exact refines_addData h data kind
    | some mode =>
      obtain rfl := kind_of_cudaSource hcuda hr
      have hmode : m.mode item (some mode) = mode := by simp [Manifest.mode, hcuda]
      unfold Linker.addFileGuessExt
      rw [hcuda, hmode]
      simp only
      rw [addFile_ok _ hr]
      exact refines_defer h (data, mode)

theorem addFileGuessExt_skip {ignoreNonlto : Bool} {item : LinkItem} (l : Linker Config) (compileCuAsLtoir : Option Bool)
    (h : ∀ data kind, Linker.resolveItem env ignoreNonlto item ≠ .ok (some (data, kind))) :
    (l.addFileGuessExt env item ignoreNonlto compileCuAsLtoir).toOption.getD l = l := by
  unfold Linker.addFileGuessExt
  split
  · next mode hcuda =>
    rcases addFile_skip { l with lto := mode } h with ⟨e, he⟩ | he
    · rw [he]; rfl
    · rw [he]; rfl
  · rcases addFile_skip l h with ⟨e, he⟩ | he
    · rw [he]; rfl
    · rw [he]; rfl

theorem refines_addItem (h : Refines env l m) (item : LinkItem) (ignoreNonlto : Bool) (compileCuAsLtoir : Option Bool) :
    Refines env ((l.addFileGuessExt env item ignoreNonlto compileCuAsLtoir).toOption.getD l)
      (m.addItem env item ignoreNonlto compileCuAsLtoir) := by
  unfold Manifest.addItem
  split
  · next data kind hr => exact refines_addItem_added h hr compileCuAsLtoir
  · next hskip =>
    rw [addFileGuessExt_skip l compileCuAsLtoir fun data kind hr => hskip data kind hr]
    exact h

/-! ## Links -/

theorem given_iff {o : ObjectCode} : m.given env o = true ↔ ¬ FromSource env m.compile o := by
  have horder : m.order = m.compile.inputs := rfl
  rw [Manifest.given, horder, List.all_eq_true]
  constructor
  · rintro hall ⟨s, hs, hmode, rfl⟩
    simpa [hmode, Manifest.compile] using hall _ hs
  · intro hnot i hi
    cases i with
    | object o' => rfl
    | source s =>
      by_contra hs
      simp only [Bool.not_eq_true, Bool.not_eq_false', Bool.and_eq_true, beq_iff_eq] at hs
      exact hnot ⟨s, hi, hs.1, hs.2⟩

theorem links_of_refines (h : Refines env l m) (ptx : Bool) : Links env m l ptx := by
  have hmat := refines_materialize h
  have hflag : ∃ b, (l.materializePendingCu env).hasLtoir = b ∧
      (b = true ↔ ∃ o ∈ (l.link env ptx).1, o.isLtoir = true) :=
    ⟨_, rfl, by rw [hmat.hasLtoir, List.any_eq_true]; rfl⟩
  obtain ⟨b, hb, hiff⟩ := hflag
  exact
    { inOrder := hmat.inOrder
      present := fun o ho => (mem_keepFirst _).mp (hmat.kept ▸ (mem_keepFirst _).mpr ho)
      once := by
        have hself : keepFirst ObjectCode.isLtoir ((l.link env ptx).1.filter (m.given env)) =
            (l.link env ptx).1.filter (m.given env) := by
          refine keepFirst_eq_self _ fun o ho => ?_
          by_contra hmany
          have hgiven : m.given env o = true := by
            by_contra hg
            rw [List.count_eq_zero_of_not_mem fun hmem => hg (List.mem_filter.mp hmem).2] at hmany
            omega
          rw [List.count_filter hgiven] at hmany
          exact given_iff.mp hgiven (hmat.repeated o ho (Nat.lt_of_not_le hmany))
        rw [← hself, ← keepFirst_filter, ← keepFirst_filter]
        exact congrArg (List.filter (m.given env)) hmat.kept
      kernelFirst := hmat.kernel
      compiledOnce := (List.append_nil _).symm.trans hmat.sources
      ltoFlag := by
        rw [← hiff, Linker.link, Linker.getLinkerOptions, hb]
        cases b <;> simp
      ptxFlag := by
        rw [← hiff, Linker.link, Linker.getLinkerOptions, hb]
        cases b <;> cases ptx <;> simp }

/-! ## Runs -/

variable (env)

/-- The linkers of a run and their records, one by one. -/
def Recorded (ls : List (Linker Config)) (ms : List (Manifest Config)) : Prop := List.Forall₂ (Refines env) ls ms

variable {env}

theorem Recorded.get {ls : List (Linker Config)} {ms : List (Manifest Config)} (h : Recorded env ls ms) {i : Nat}
    {l : Linker Config} (hl : ls[i]? = some l) : ∃ m, ms[i]? = some m ∧ Refines env l m := by
  induction h generalizing i with
  | nil => cases hl
  | cons hr hrest ih =>
    cases i with
    | zero => exact ⟨_, rfl, Option.some.inj hl ▸ hr⟩
    | succ i => exact ih hl

theorem Recorded.set {ls : List (Linker Config)} {ms : List (Manifest Config)} (h : Recorded env ls ms) {l : Linker Config}
    {m : Manifest Config} (hr : Refines env l m) : ∀ i : Nat, Recorded env (ls.set i l) (ms.set i m) := by
  induction h with
  | nil => exact fun _ => List.Forall₂.nil
  | cons hr' hrest ih =>
    intro i
    cases i with
    | zero => exact List.Forall₂.cons hr hrest
    | succ i => exact List.Forall₂.cons hr' (ih i)

theorem Recorded.snoc {ls : List (Linker Config)} {ms : List (Manifest Config)} (h : Recorded env ls ms) {l : Linker Config}
    {m : Manifest Config} (hr : Refines env l m) : Recorded env (ls ++ [l]) (ms ++ [m]) := by
  induction h with
  | nil => exact List.Forall₂.cons hr List.Forall₂.nil
  | cons hr' _ ih => exact List.Forall₂.cons hr' ih

theorem recorded_map {ls ls' : List (Linker Config)} {ms : List (Manifest Config)} (h : Recorded env ls ms) {i : Nat}
    {f : Linker Config → Linker Config} {g : Manifest Config → Manifest Config}
    (hfg : ∀ l m, Refines env l m → Refines env (f l) (g m)) (hl : (ls[i]?.map fun l => ls.set i (f l)) = some ls') :
    ∃ ms', (ms[i]?.map fun m => ms.set i (g m)) = some ms' ∧ Recorded env ls' ms' := by
  obtain ⟨l, hget, rfl⟩ := Option.map_eq_some_iff.mp hl
  obtain ⟨m, hm, hr⟩ := h.get hget
  exact ⟨_, by rw [hm]; rfl, h.set (hfg l m hr) i⟩

theorem recorded_step {ls ls' : List (Linker Config)} {ms : List (Manifest Config)} (h : Recorded env ls ms) {e : Event Config}
    (hstep : step env ls e = some ls') : ∃ ms', record env ms e = some ms' ∧ Recorded env ls' ms' := by
  cases e with
  | create config lto =>
    obtain rfl := Option.some.inj hstep
    exact ⟨_, rfl, h.snoc (refines_new config lto)⟩
  | addPtx i ptx => exact recorded_map h (fun l m hr => refines_place hr rfl) hstep
  | addCubin i cubin => exact recorded_map h (fun l m hr => refines_place hr rfl) hstep
  | addLtoir i ltoir => exact recorded_map h (fun l m hr => refines_addLtoir hr ltoir) hstep
  | addFileGuessExt i item ignoreNonlto compileCuAsLtoir =>
    exact recorded_map h (fun l m hr => refines_addItem hr item ignoreNonlto compileCuAsLtoir) hstep
  | link i => exact recorded_map h (fun l m hr => refines_materialize hr) hstep
  | mergeLtoirsFrom i j =>
    obtain ⟨l, hl, hother⟩ := Option.bind_eq_some_iff.mp hstep
    obtain ⟨other, hj, rfl⟩ := Option.map_eq_some_iff.mp hother
    obtain ⟨m, hm, hr⟩ := h.get hl
    obtain ⟨mother, hmj, hrother⟩ := h.get hj
    refine ⟨_, by rw [record, hm, Option.bind_some, hmj]; rfl, h.set ?_ i⟩
    rw [← hrother.known]
    exact refines_merge _ hr
  | recreateWithLto i lto ltoirOnly kernelLtoir =>
    obtain ⟨l, hl, rfl⟩ := Option.map_eq_some_iff.mp hstep
    obtain ⟨m, hm, hr⟩ := h.get hl
    exact ⟨_, by rw [record, hm]; rfl,
      (h.set (refines_materialize hr) i).snoc (refines_recreate hr lto ltoirOnly kernelLtoir)⟩

theorem recorded_run : ∀ (es : List (Event Config)) {ls ls' : List (Linker Config)} {ms : List (Manifest Config)},
    Recorded env ls ms → Runs.run (step env) ls es = some ls' → ∃ ms', Runs.run (record env) ms es = some ms' ∧ Recorded env ls' ms'
  | [], _, _, ms, h, hrun => by
    obtain rfl := Option.some.inj hrun
    exact ⟨ms, rfl, h⟩
  | e :: es, _, _, _, h, hrun => by
    obtain ⟨mid, hmid, hrest⟩ := Runs.run_cons_some _ hrun
    obtain ⟨ms', hms', hr⟩ := recorded_step h hmid
    obtain ⟨ms'', hms'', hr'⟩ := recorded_run es hr hrest
    exact ⟨ms'', by rw [Runs.run, hms']; exact hms'', hr'⟩

variable (env) in
structure History where
  events : List (Event Config)
  linkers : List (Linker Config)
  reached : Runs.run (step env) [] events = some linkers

/-- After every run, each linker links what its record says. -/
theorem linker_keeps_inputs (r : History env) : ∃ ms, Runs.run (record env) [] r.events = some ms ∧
    List.Forall₂ (fun l m => ∀ ptx, Links env m l ptx) r.linkers ms := by
  obtain ⟨ms, hms, hr⟩ := recorded_run r.events List.Forall₂.nil r.reached
  exact ⟨ms, hms, hr.imp fun _ _ h => links_of_refines h⟩

/-- A compiler that keeps the text of a source; there are no files. -/
def textEnv : Env Unit where
  nvrtcCompile := fun _ source _ => source
  hash := fun bytes => Int.ofNat (Encodable.encode (bytes.map UInt8.toNat))
  hash_injective := fun _ _ h => List.map_injective_iff.mpr (fun _ _ => UInt8.toNat_inj.mp) (Encodable.encode_injective (Int.ofNat.inj h))
  cachedFileRead := fun _ => none
  inspectObjContent := fun _ => none

/-- A CUDA source added before a PTX is linked behind it. -/
theorem source_linked_behind_ptx :
    ((Runs.run (step textEnv) [] [.create () false,
      .addFileGuessExt 0 (.code ⟨"CUSource", .cu, [99], fun _ => rfl⟩) false (some false), .addPtx 0 [112]]).map
        fun ls => ls.map fun l => (l.link textEnv false).1) = some [[⟨.ptx, [112]⟩, ⟨.ptx, [99]⟩]] ∧
    [textEnv.objectOf () ([99], false), ⟨.ptx, [112]⟩] ≠ [⟨.ptx, [112]⟩, ⟨.ptx, [99]⟩] :=
  ⟨rfl, by decide⟩

end NumbaCudaMlir.ObjectLinker
