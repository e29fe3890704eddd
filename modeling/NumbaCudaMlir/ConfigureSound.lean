import NumbaCudaMlir.Configure

/-!
# Soundness of configuring launches

Every event that a thread waits on is set, or belongs to a thread that is still
building; only such a thread's event is in the in-flight table; and what enters
the configure cache is not stale.
-/

namespace NumbaCudaMlir.Configure

/-! ## The steps -/

section
variable (usesLaunchConfig : Nat → Bool) (bornAt : Nat)

inductive Step (s : ConfigureState) : ConfigureEvent → ConfigureState → Prop
  | begin {i config stream} : s.threads i = .idle →
      Step s (.begin i config stream) (s.setPc i (.looking (configureKey usesLaunchConfig s.d config stream) 0))
  | look {i key retries} : s.threads i = .looking key retries → Step s (.look i) (look s i key retries)
  | wake {i key retries event} : s.threads i = .waiting key retries event → s.d.isSet event = true →
      Step s (.wake i) (s.setPc i (.looking key retries))
  | read {i key retries event} : s.threads i = .building key retries event .reading →
      Step s (.read i) (s.setPc i (.building key retries event (readPhase usesLaunchConfig s.d key)))
  | find {i key retries event} : s.threads i = .building key retries event .finding →
      Step s (.find i) ({ s with d := (findPhase s.d key.config.key).1 }.setPc i
        (.building key retries event (findPhase s.d key.config.key).2))
  | insert {i key retries event g} : s.threads i = .building key retries event (.inserting g) →
      Step s (.insert i) ({ s with d := (insertPhase (s.d.newKernelDispatcher bornAt) key.config.key g).1 }.setPc i
        (.building key retries event (insertPhase (s.d.newKernelDispatcher bornAt) key.config.key g).2))
  | make {i key retries event kd g} : s.threads i = .building key retries event (.making kd g) →
      Step s (.make i) ({ s with d := s.d.newMarshaller (marshaller key kd g) }.setPc i
        (.building key retries event (.built s.d.marshallers.length)))
  | fail {i key retries event phase} : s.threads i = .building key retries event phase →
      Step s (.fail i) ((s.release key event).setPc i .raised)
  | finish {i key retries event m} : s.threads i = .building key retries event (.built m) →
      Step s (.finish i) (finish s i key retries event m)
  | clearConfigureCache : Step s .clearConfigureCache { s with d := s.d.clearConfigureCache }
  | recordLiteralArgPositions (positions) : Step s (.recordLiteralArgPositions positions)
      { s with d := s.d.recordLiteralArgPositions positions bornAt }
  | recompile : Step s .recompile { s with d := s.d.recompileLocked bornAt }
  | markRequiresLaunchConfig : Step s .markRequiresLaunchConfig { s with d := { s.d with requiresLaunchConfig := true } }
  | setExtensions (extensions) : Step s (.setExtensions extensions) { s with d := { s.d with extensions := extensions } }

variable {usesLaunchConfig bornAt}

theorem step_cases {s s' : ConfigureState} {e : ConfigureEvent} (h : step usesLaunchConfig bornAt s e = some s') :
    Step usesLaunchConfig bornAt s e s' := by
  unfold step at h
  split at h
  case h_1 => split at h <;> cases h; exact .begin ‹_›
  case h_2 => split at h <;> cases h; exact .look ‹_›
  case h_3 =>
    split at h
    · next hpc =>
      split at h
      · next hset => cases h; exact .wake hpc hset
      · cases h
    · cases h
  case h_4 => split at h <;> cases h; exact .read ‹_›
  case h_5 => split at h <;> cases h; exact .find ‹_›
  case h_6 => split at h <;> cases h; exact .insert ‹_›
  case h_7 => split at h <;> cases h; exact .make ‹_›
  case h_8 => split at h <;> cases h; exact .fail ‹_›
  case h_9 => split at h <;> cases h; exact .finish ‹_›
  all_goals cases h; constructor

end

/-! ## What the steps keep -/

/-- The part of a dispatcher that waiting and caching depend on. -/
structure SameTables (d d' : Dispatcher) : Prop where
  cache : d'.configureCache = d.configureCache
  inflight : d'.configureCacheInflight = d.configureCacheInflight
  events : d'.events = d.events

theorem SameTables.refl (d : Dispatcher) : SameTables d d := ⟨rfl, rfl, rfl⟩

theorem SameTables.trans {d d' d'' : Dispatcher} (h : SameTables d d') (h' : SameTables d' d'') :
    SameTables d d'' :=
  ⟨h'.cache.trans h.cache, h'.inflight.trans h.inflight, h'.events.trans h.events⟩

theorem sameTables_evict (d : Dispatcher) : SameTables d d.evictLaunchConfig := by
  unfold Dispatcher.evictLaunchConfig
  split <;> exact ⟨rfl, rfl, rfl⟩

theorem sameTables_iterate_evict (n : Nat) (d : Dispatcher) : SameTables d (Dispatcher.evictLaunchConfig^[n] d) := by
  induction n generalizing d with
  | zero => exact .refl d
  | succ n ih => exact (sameTables_evict d).trans (ih _)

theorem sameTables_remember (d : Dispatcher) (key : LaunchConfig) (kd : Nat) (replaceExisting : Bool) :
    SameTables d (d.rememberKernelDispatcherLocked key kd replaceExisting) := by
  unfold Dispatcher.rememberKernelDispatcherLocked
  split
  · split <;> exact ⟨rfl, rfl, rfl⟩
  · have h := sameTables_iterate_evict
      ((d.launchConfigDispatchers.set key kd).length - launchConfigCacheSize)
      { d with launchConfigDispatchers := d.launchConfigDispatchers.set key kd }
    exact ⟨h.cache, h.inflight, h.events⟩

theorem sameTables_find (d : Dispatcher) (key : LaunchConfig) : SameTables d (findPhase d key).1 := by
  unfold findPhase
  split <;> exact ⟨rfl, rfl, rfl⟩

theorem sameTables_insert (d : Dispatcher) (key : LaunchConfig) (g : Nat) : SameTables d (insertPhase d key g).1 := by
  unfold insertPhase
  split
  · exact .refl d
  split
  · exact ⟨rfl, rfl, rfl⟩
  · exact sameTables_remember ..

/-! ## Events -/

structure EventsGrow (es es' : List Bool) : Prop where
  length : es.length ≤ es'.length
  isSet : ∀ e : Nat, es[e]? = some true → es'[e]? = some true

theorem EventsGrow.refl (es : List Bool) : EventsGrow es es := ⟨Nat.le_refl _, fun _ h => h⟩

theorem EventsGrow.trans {es es' es'' : List Bool} (h : EventsGrow es es') (h' : EventsGrow es' es'') :
    EventsGrow es es'' :=
  ⟨Nat.le_trans h.length h'.length, fun e he => h'.isSet e (h.isSet e he)⟩

theorem eventsGrow_set (es : List Bool) (e : Nat) : EventsGrow es (es.set e true) := by
  refine ⟨by simp, fun j hj => ?_⟩
  rw [List.getElem?_set]
  split
  · next h =>
    subst h
    rw [if_pos (List.getElem?_eq_some_iff.mp hj).1]
  · exact hj

theorem eventsGrow_foldl (l : List Nat) (es : List Bool) :
    EventsGrow es (l.foldl (fun es e => es.set e true) es) := by
  induction l generalizing es with
  | nil => exact .refl es
  | cons e l ih => exact (eventsGrow_set es e).trans (ih _)

theorem eventsGrow_append (es : List Bool) (b : Bool) : EventsGrow es (es ++ [b]) := by
  refine ⟨by simp, fun e he => ?_⟩
  rw [List.getElem?_append_left (List.getElem?_eq_some_iff.mp he).1]
  exact he

/-! ## Invariant -/

def ConfigurePc.owns : ConfigurePc → Option (ConfigureKey × Nat)
  | .building key _ event _ => some (key, event)
  | _ => none

def ConfigurePc.waitsOn : ConfigurePc → Option Nat
  | .waiting _ _ event => some event
  | _ => none

def ConfigurePc.finished : ConfigurePc → Bool
  | .idle | .returned _ | .raised => true
  | _ => false

structure Inv (s : ConfigureState) : Prop where
  waits : ∀ i e, (s.threads i).waitsOn = some e → s.d.isSet e = true ∨ ∃ o key, (s.threads o).owns = some (key, e)
  registered : ∀ key e, s.d.configureCacheInflight.get key = some e → ∃ o, (s.threads o).owns = some (key, e)
  owners : Runs.KeysUnique (fun pc => pc.owns.map (·.2)) s.threads
  known : ∀ i key e, (s.threads i).owns = some (key, e) → e < s.d.events.length

theorem inv_init {d : Dispatcher} (h : d.configureCacheInflight = .empty) : Inv (.init d) where
  waits i e h := by cases h
  registered key e he := by rw [ConfigureState.init, h] at he; cases he
  owners i j k hi := by cases hi
  known i key e h := by cases h

theorem owns_setPc {s : ConfigureState} {i : Nat} {pc : ConfigurePc} (ho : pc.owns = (s.threads i).owns) (o : Nat) :
    ((s.setPc i pc).threads o).owns = (s.threads o).owns := by
  by_cases h : o = i
  · subst h; rw [ConfigureState.setPc_self, ho]
  · rw [ConfigureState.setPc_ne s pc h]

theorem Inv.congr {s : ConfigureState} (hi : Inv s) {d : Dispatcher}
    (hf : d.configureCacheInflight = s.d.configureCacheInflight) (he : d.events = s.d.events) :
    Inv { s with d := d } := by
  constructor
  · intro i e h
    simp only [Dispatcher.isSet, he]
    exact hi.waits i e h
  · intro key e h
    rw [hf] at h
    exact hi.registered key e h
  · exact hi.owners
  · intro i key e h
    rw [he]
    exact hi.known i key e h

theorem Inv.move {s : ConfigureState} (hi : Inv s) {i : Nat} {pc : ConfigurePc} (ho : pc.owns = (s.threads i).owns)
    (hw : ∀ e, pc.waitsOn = some e → ∃ key, s.d.configureCacheInflight.get key = some e) :
    Inv (s.setPc i pc) := by
  have hown (o : Nat) : ((s.setPc i pc).threads o).owns = (s.threads o).owns := owns_setPc ho o
  constructor
  · intro j e hj
    have key : s.d.isSet e = true ∨ ∃ o key, (s.threads o).owns = some (key, e) := by
      by_cases h : j = i
      · subst h
        rw [ConfigureState.setPc_self] at hj
        obtain ⟨key, hk⟩ := hw e hj
        obtain ⟨o, ho⟩ := hi.registered key e hk
        exact .inr ⟨o, key, ho⟩
      · rw [ConfigureState.setPc_ne _ _ h] at hj
        exact hi.waits j e hj
    unfold Dispatcher.isSet at key ⊢
    simp only [hown, ConfigureState.setPc_d]
    exact key
  · intro key e h
    simp only [hown]
    exact hi.registered key e h
  · intro j l k hj hl
    simp only [hown] at hj hl
    exact hi.owners j l k hj hl
  · intro j key e h
    rw [hown] at h
    exact hi.known j key e h

theorem Inv.register {s : ConfigureState} (hi : Inv s) {i : Nat} {key : ConfigureKey} {retries : Nat}
    {phase : BuildPhase} (hn : s.d.configureCacheInflight.get key = none) (ho : (s.threads i).owns = none) :
    Inv ((s.register key).setPc i (.building key retries s.d.events.length phase)) := by
  have old {o : Nat} {k : ConfigureKey} {e : Nat} (h : (s.threads o).owns = some (k, e)) :
      (((s.register key).setPc i (.building key retries s.d.events.length phase)).threads o).owns = some (k, e) := by
    have hne : o ≠ i := by
      rintro rfl
      rw [ho] at h; cases h
    rw [ConfigureState.setPc_ne _ _ hne]; exact h
  have grow := eventsGrow_append s.d.events false
  constructor
  · intro j e hj
    have hj' : (s.threads j).waitsOn = some e := by
      by_cases h : j = i
      · subst h
        rw [ConfigureState.setPc_self] at hj
        cases hj
      · rw [ConfigureState.setPc_ne _ _ h] at hj
        exact hj
    rcases hi.waits j e hj' with h | ⟨o, k, h⟩
    · left
      simp only [Dispatcher.isSet, decide_eq_true_eq] at h ⊢
      exact grow.isSet e h
    · right
      exact ⟨o, k, old h⟩
  · intro k e h
    change (s.d.configureCacheInflight.set key s.d.events.length).get k = some e at h
    rcases Dict.get_of_set h with ⟨rfl, rfl⟩ | h
    · exact ⟨i, by rw [ConfigureState.setPc_self]; rfl⟩
    · obtain ⟨o, ho⟩ := hi.registered k e h
      exact ⟨o, old ho⟩
  · apply Runs.KeysUnique.setAt hi.owners
    intro e he j _ hj
    cases he
    obtain ⟨⟨k, e⟩, hk, rfl⟩ := Option.map_eq_some_iff.mp hj
    exact absurd (hi.known j k _ hk) (Nat.lt_irrefl _)
  · intro j k e h
    change e < (s.d.events ++ [false]).length
    by_cases hj : j = i
    · subst hj
      rw [ConfigureState.setPc_self] at h
      cases h
      simp
    · rw [ConfigureState.setPc_ne _ _ hj] at h
      exact Nat.lt_of_lt_of_le (hi.known j k e h) grow.length

theorem Inv.release {s : ConfigureState} (hi : Inv s) {i : Nat} {key : ConfigureKey} {event : Nat} {pc : ConfigurePc}
    (ho : (s.threads i).owns = some (key, event)) (hpo : pc.owns = none) (hpw : pc.waitsOn = none) :
    Inv ((s.release key event).setPc i pc) := by
  have grow := eventsGrow_set s.d.events event
  have hset : (s.d.events.set event true)[event]? = some true := by
    simp [hi.known i key event ho]
  -- The others keep their events, which are not this one.
  have other {o : Nat} {k : ConfigureKey} {e : Nat} (h : (s.threads o).owns = some (k, e)) (hne : e ≠ event) :
      (((s.release key event).setPc i pc).threads o).owns = some (k, e) := by
    have : o ≠ i := by
      rintro rfl
      rw [ho] at h; cases h; exact hne rfl
    rw [ConfigureState.setPc_ne _ _ this]; exact h
  constructor
  · intro j e hj
    have hj' : (s.threads j).waitsOn = some e := by
      by_cases h : j = i
      · subst h
        rw [ConfigureState.setPc_self, hpw] at hj
        cases hj
      · rw [ConfigureState.setPc_ne _ _ h] at hj
        exact hj
    by_cases he : e = event
    · subst he
      left
      exact decide_eq_true hset
    rcases hi.waits j e hj' with h | ⟨o, k, h⟩
    · left
      simp only [Dispatcher.isSet, decide_eq_true_eq] at h ⊢
      exact grow.isSet e h
    · right
      exact ⟨o, k, other h he⟩
  · intro k e h
    have hk : s.d.configureCacheInflight.get k = some e ∧ e ≠ event := by
      change (if s.d.configureCacheInflight.get key = some event then s.d.configureCacheInflight.erase key
        else s.d.configureCacheInflight).get k = some e at h
      have hreg (hk : s.d.configureCacheInflight.get k = some event) : k = key := by
        obtain ⟨o, hown⟩ := hi.registered k event hk
        have := hi.owners o i event (by simp [hown]) (by simp [ho])
        subst this
        rw [ho] at hown; cases hown; rfl
      split at h
      · rw [Dict.get_erase] at h
        split at h
        · cases h
        · next hne => exact ⟨h, by rintro rfl; exact hne (hreg h)⟩
      · next hkey => exact ⟨h, by rintro rfl; exact hkey (hreg h ▸ h)⟩
    obtain ⟨o, hown⟩ := hi.registered k e hk.1
    exact ⟨o, other hown hk.2⟩
  · apply Runs.KeysUnique.setAt hi.owners
    intro e he
    rw [hpo] at he; cases he
  · intro j k e h
    change e < (s.d.events.set event true).length
    by_cases hj : j = i
    · subst hj
      rw [ConfigureState.setPc_self, hpo] at h
      cases h
    · rw [ConfigureState.setPc_ne _ _ hj] at h
      exact Nat.lt_of_lt_of_le (hi.known j k e h) grow.length

theorem Inv.invalidate {s : ConfigureState} (hi : Inv s) {d : Dispatcher}
    (hf : d.configureCacheInflight = s.d.clearConfigureCache.configureCacheInflight)
    (he : d.events = s.d.clearConfigureCache.events) : Inv { s with d := d } := by
  have grow : EventsGrow s.d.events d.events := by rw [he]; exact eventsGrow_foldl ..
  constructor
  · intro i e h
    rcases hi.waits i e h with h | h
    · left
      simp only [Dispatcher.isSet, decide_eq_true_eq] at h ⊢
      exact grow.isSet e h
    · exact .inr h
  · intro key e h
    rw [hf] at h; cases h
  · exact hi.owners
  · intro i key e h
    exact Nat.lt_of_lt_of_le (hi.known i key e h) grow.length

section
variable {usesLaunchConfig : Nat → Bool} {bornAt : Nat}

theorem Inv.hit {s : ConfigureState} (hi : Inv s) {i : Nat} (key : ConfigureKey) (m : Nat)
    (ho : (s.threads i).owns = none) : Inv (s.hit i key m) := by
  have hm : Inv (s.setPc i (.returned m)) := hi.move (by rw [ho]; rfl) (by intro e he; cases he)
  exact hm.congr rfl rfl

theorem Inv.look {s : ConfigureState} (hi : Inv s) {i : Nat} {key : ConfigureKey} {retries : Nat}
    (ho : (s.threads i).owns = none) : Inv (look s i key retries) := by
  unfold Configure.look
  split
  · exact hi.hit key _ ho
  split
  · next hn => exact hi.register hn ho
  · next event he =>
    apply hi.move (by rw [ho]; rfl)
    intro e h
    cases h
    exact ⟨key, he⟩

theorem Inv.finish {s : ConfigureState} (hi : Inv s) {i : Nat} {key : ConfigureKey} {retries event m : Nat}
    (ho : (s.threads i).owns = some (key, event)) : Inv (finish s i key retries event m) := by
  unfold Configure.finish
  split
  · next cached _ =>
    have hr : Inv ((s.release key event).setPc i (.returned cached)) := hi.release ho rfl rfl
    exact hr.congr rfl rfl
  split
  · split
    · exact hi.release ho rfl rfl
    · exact hi.release ho rfl rfl
  · have hs : Inv (s.store key m) := hi.congr rfl rfl
    exact hs.release ho rfl rfl

theorem step_inv {s s' : ConfigureState} {e : ConfigureEvent} (hi : Inv s)
    (h : step usesLaunchConfig bornAt s e = some s') : Inv s' := by
  cases step_cases h with
  | begin hpc | wake hpc | read hpc => exact hi.move (by rw [hpc]; rfl) (by intro e he; cases he)
  | look hpc => exact hi.look (by rw [hpc]; rfl)
  | @find i key _ _ hpc =>
    have hd := sameTables_find s.d key.config.key
    exact (hi.congr hd.inflight hd.events).move (by rw [hpc]; rfl) (by intro e he; cases he)
  | @insert i key _ _ g hpc =>
    have hd := sameTables_insert (s.d.newKernelDispatcher bornAt) key.config.key g
    exact (hi.congr hd.inflight hd.events).move (by rw [hpc]; rfl) (by intro e he; cases he)
  | @make i key retries event kd g hpc =>
    have hm : Inv (s.setPc i (.building key retries event (.built s.d.marshallers.length))) :=
      hi.move (by rw [hpc]; rfl) (by intro e he; cases he)
    exact hm.congr rfl rfl
  | fail hpc => exact hi.release (by rw [hpc]; rfl) rfl rfl
  | finish hpc => exact hi.finish (by rw [hpc]; rfl)
  | clearConfigureCache | recompile => exact hi.invalidate rfl rfl
  | recordLiteralArgPositions positions =>
    unfold Dispatcher.recordLiteralArgPositions
    simp only
    split
    · exact hi
    · exact hi.invalidate rfl rfl
  | markRequiresLaunchConfig | setExtensions => exact ⟨hi.waits, hi.registered, hi.owners, hi.known⟩

/-! ## The configure cache -/

/-- The marshaller belongs to the dispatcher's current generation, or native dispatcher. -/
def Current (d : Dispatcher) (launchConfigEnabled : Bool) (m : Nat) : Prop :=
  ∃ marshaller, d.marshallers[m]? = some marshaller ∧
    if launchConfigEnabled then marshaller.launchConfigGeneration = some d.launchConfigGeneration
    else marshaller.kernelDispatcher = d.c

theorem current_of_not_stale {d : Dispatcher} {enabled : Bool} {m : Nat}
    (h : ¬ (d.marshallers[m]?).all (fun m => d.marshallerStale enabled m) = true) : Current d enabled m := by
  cases hm : d.marshallers[m]? with
  | none => rw [hm] at h; exact absurd rfl h
  | some marshaller =>
    rw [hm, Option.all_some, Dispatcher.marshallerStale] at h
    refine ⟨marshaller, hm, ?_⟩
    split at h
    · next he => rw [if_pos he]; simpa using h
    · next he => rw [if_neg he]; simpa using h

theorem get_of_iterate_popFirst {κ α : Type} [DecidableEq κ] {k : κ} {v : α} :
    ∀ {n : Nat} {d : Dict κ α}, (Dict.popFirst^[n] d).get k = some v → d.get k = some v
  | 0, _, h => h
  | _ + 1, _, h => Dict.get_of_popFirst (get_of_iterate_popFirst h)

theorem finish_cache {s : ConfigureState} {i : Nat} {key k : ConfigureKey} {retries event m n : Nat}
    (h : (finish s i key retries event m).d.configureCache.get k = some n) :
    s.d.configureCache.get k = some n ∨ Current s.d k.launchConfigEnabled n := by
  unfold finish at h
  split at h
  · left
    change (s.d.configureCache.moveToEnd key).get k = some n at h
    rw [Dict.get_moveToEnd] at h
    exact h
  split at h
  · left
    split at h <;> exact h
  · next hstale =>
    simp only [ConfigureState.setPc_d, ConfigureState.release, Dispatcher.setEvent, ConfigureState.store] at h
    rcases Dict.get_of_set (get_of_iterate_popFirst h) with ⟨rfl, rfl⟩ | h
    · exact .inr (current_of_not_stale hstale)
    · exact .inl h

theorem look_cache {s : ConfigureState} {i : Nat} {key k : ConfigureKey} {retries n : Nat}
    (h : (look s i key retries).d.configureCache.get k = some n) : s.d.configureCache.get k = some n := by
  unfold look at h
  split at h
  · change (s.d.configureCache.moveToEnd key).get k = some n at h
    rw [Dict.get_moveToEnd] at h
    exact h
  · split at h <;> exact h

theorem step_cache {s s' : ConfigureState} {e : ConfigureEvent} (h : step usesLaunchConfig bornAt s e = some s')
    {key : ConfigureKey} {m : Nat} (hm : s'.d.configureCache.get key = some m) :
    s.d.configureCache.get key = some m ∨ Current s.d key.launchConfigEnabled m := by
  cases step_cases h with
  | look hpc => exact .inl (look_cache hm)
  | @find i k _ _ hpc =>
    rw [ConfigureState.setPc_d, (sameTables_find s.d k.config.key).cache] at hm
    exact .inl hm
  | @insert i k _ _ g hpc =>
    rw [ConfigureState.setPc_d, (sameTables_insert (s.d.newKernelDispatcher bornAt) k.config.key g).cache] at hm
    exact .inl hm
  | finish hpc => exact finish_cache hm
  | recordLiteralArgPositions positions =>
    unfold Dispatcher.recordLiteralArgPositions at hm
    simp only at hm
    split at hm
    · exact .inl hm
    · cases hm
  | clearConfigureCache | recompile => cases hm
  | begin hpc | wake hpc | read hpc | make hpc | fail hpc | markRequiresLaunchConfig | setExtensions => exact .inl hm

/-! ## Runs -/

theorem run_inv {d : Dispatcher} (hd : d.configureCacheInflight = .empty) {es : List ConfigureEvent}
    {s : ConfigureState} (h : Runs.run (step usesLaunchConfig bornAt) (.init d) es = some s) : Inv s :=
  Runs.run_inv_all _ (fun _ _ _ => step_inv) (inv_init hd) h

theorem owns_eq_some {pc : ConfigurePc} {key : ConfigureKey} {e : Nat} (h : pc.owns = some (key, e)) :
    ∃ retries phase, pc = .building key retries e phase := by
  cases pc with
  | building k retries event phase => cases h; exact ⟨retries, phase, rfl⟩
  | _ => cases h

theorem Inv.waiting {s : ConfigureState} (hi : Inv s) {i : Nat} {key : ConfigureKey} {retries event : Nat}
    (h : s.threads i = .waiting key retries event) :
    s.d.isSet event = true ∨ ∃ o key retries phase, s.threads o = .building key retries event phase := by
  rcases hi.waits i event (by rw [h]; rfl) with h | ⟨o, key, ho⟩
  · exact .inl h
  · obtain ⟨retries, phase, ho⟩ := owns_eq_some ho
    exact .inr ⟨o, key, retries, phase, ho⟩

/-- **Single flight.** In every state that any number of threads and invalidators
reach, a thread waits on an event that is set or that a building thread has yet
to set; a step puts a marshaller into the cache only if it is current; and the
in-flight table is empty once every thread has finished. -/
theorem single_flight {numParams : Nat} {extensions : List Nat} {es : List ConfigureEvent} {s : ConfigureState}
    (h : Runs.run (step usesLaunchConfig bornAt) (.init (.init numParams extensions)) es = some s) :
    (∀ i key retries event, s.threads i = .waiting key retries event →
      s.d.isSet event = true ∨ ∃ o key retries phase, s.threads o = .building key retries event phase) ∧
    (∀ e s' key m, step usesLaunchConfig bornAt s e = some s' → s'.d.configureCache.get key = some m →
      s.d.configureCache.get key ≠ some m → Current s.d key.launchConfigEnabled m) ∧
    ((∀ i, (s.threads i).finished = true) → s.d.configureCacheInflight.entries = []) := by
  have hi : Inv s := run_inv rfl h
  refine ⟨fun i key retries event hw => hi.waiting hw, ?_, ?_⟩
  · intro e s' key m hs hm hn
    exact (step_cache hs hm).resolve_left hn
  · intro hf
    rw [List.eq_nil_iff_forall_not_mem]
    rintro ⟨key, e⟩ hmem
    obtain ⟨o, ho⟩ := hi.registered key e (Dict.get_eq_some_iff.mpr hmem)
    obtain ⟨retries, phase, ho⟩ := owns_eq_some ho
    have := hf o
    rw [ho] at this
    cases this

/-- Two calls for one configuration, with a recompile while the second waits for the first. -/
def twoConfigures : List ConfigureEvent :=
  [.begin 0 ⟨(1, 1, 1), (32, 1, 1), none, none⟩ 0, .look 0, .begin 1 ⟨(1, 1, 1), (32, 1, 1), none, none⟩ 0, .look 1,
    .read 0, .find 0, .recompile]

theorem single_flight_recompiled : ∃ s,
    Runs.run (step (fun _ => true) 0) (.init (.init 1 [7])) twoConfigures = some s ∧
    (s.d.isSet 0 = true ∨ ∃ o key retries phase, s.threads o = .building key retries 0 phase) := by
  refine ⟨_, rfl, ?_⟩
  exact (@single_flight (fun _ => true) 0 1 [7] twoConfigures _ rfl).1 1 _ _ 0 rfl

end

end NumbaCudaMlir.Configure
