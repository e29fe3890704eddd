import NumbaCudaMlir.Dispatcher

/-!
# Configuring launches

`configure` keeps one marshaller for each launch configuration. The first thread
that misses the cache builds the marshaller without the lock; the others wait
on its event. The steps are the sections that hold `_launch_config_lock` and
what lies between them; the invalidators take their own steps at any point.
-/

namespace NumbaCudaMlir.Configure

/-! ## State -/

inductive BuildPhase where
  /-- Before `_c` and `_launch_config_enabled` are read. -/
  | reading
  /-- Before the lookup of the launch-config dispatcher. -/
  | finding
  /-- The lookup missed in this generation; a new dispatcher is made. -/
  | inserting (generation : Nat)
  | making (kernelDispatcher : Nat) (generation : Option Nat)
  | built (marshaller : Nat)

inductive ConfigurePc where
  | idle
  | looking (key : ConfigureKey) (staleRetries : Nat)
  | waiting (key : ConfigureKey) (staleRetries : Nat) (event : Nat)
  | building (key : ConfigureKey) (staleRetries : Nat) (event : Nat) (phase : BuildPhase)
  | returned (marshaller : Nat)
  | raised

structure ConfigureState where
  d : Dispatcher
  threads : Nat → ConfigurePc

def ConfigureState.init (d : Dispatcher) : ConfigureState := ⟨d, fun _ => .idle⟩

inductive ConfigureEvent where
  | begin (i : Nat) (config : LaunchConfig) (stream : Nat)
  | look (i : Nat)
  /-- `inflight.wait()` returns. -/
  | wake (i : Nat)
  | read (i : Nat)
  | find (i : Nat)
  | insert (i : Nat)
  | make (i : Nat)
  | fail (i : Nat)
  | finish (i : Nat)
  | clearConfigureCache
  | recordLiteralArgPositions (positions : List Bool)
  | recompile
  | markRequiresLaunchConfig
  | setExtensions (extensions : List Nat)

namespace ConfigureState

def setPc (s : ConfigureState) (i : Nat) (pc : ConfigurePc) : ConfigureState :=
  { s with threads := Runs.setAt s.threads i pc }

@[simp] theorem setPc_d (s : ConfigureState) (i : Nat) (pc : ConfigurePc) : (s.setPc i pc).d = s.d := rfl

@[simp] theorem setPc_self (s : ConfigureState) (i : Nat) (pc : ConfigurePc) : (s.setPc i pc).threads i = pc := by
  simp [setPc]

theorem setPc_ne (s : ConfigureState) {i j : Nat} (pc : ConfigurePc) (h : j ≠ i) :
    (s.setPc i pc).threads j = s.threads j :=
  Runs.setAt_ne _ _ h

def release (s : ConfigureState) (key : ConfigureKey) (event : Nat) : ConfigureState :=
  let inflight := s.d.configureCacheInflight
  { s with
    d := { s.d.setEvent event with
      configureCacheInflight := if inflight.get key = some event then inflight.erase key else inflight } }

def hit (s : ConfigureState) (i : Nat) (key : ConfigureKey) (m : Nat) : ConfigureState :=
  { s with d := { s.d with configureCache := s.d.configureCache.moveToEnd key } }.setPc i (.returned m)

def register (s : ConfigureState) (key : ConfigureKey) : ConfigureState :=
  { s with
    d := { s.d with
      events := s.d.events ++ [false]
      configureCacheInflight := s.d.configureCacheInflight.set key s.d.events.length } }

def store (s : ConfigureState) (key : ConfigureKey) (m : Nat) : ConfigureState :=
  let cache := s.d.configureCache.set key m
  { s with
    d := { s.d with configureCache := Dict.popFirst^[cache.length - configureCacheSize] cache } }

end ConfigureState

/-! ## Steps -/

section
variable (usesLaunchConfig : Nat → Bool)

/-- The start of `configure`, without the lock. -/
def configureKey (d : Dispatcher) (config : LaunchConfig) (stream : Nat) : ConfigureKey :=
  if d.launchConfigEnabled usesLaunchConfig then ⟨true, d.extensions, config.key, stream⟩
  else ⟨false, d.extensions, config, stream⟩

def look (s : ConfigureState) (i : Nat) (key : ConfigureKey) (retries : Nat) : ConfigureState :=
  match s.d.configureCache.get key with
  | some m => s.hit i key m
  | none =>
    match s.d.configureCacheInflight.get key with
    | none => (s.register key).setPc i (.building key retries s.d.events.length .reading)
    | some event => s.setPc i (.waiting key retries event)

def readPhase (d : Dispatcher) (key : ConfigureKey) : BuildPhase :=
  if key.launchConfigEnabled ∧ d.launchConfigEnabled usesLaunchConfig then .finding else .making d.c none

/-- The first locked section of `_get_launch_config_dispatcher_and_generation`. -/
def findPhase (d : Dispatcher) (key : LaunchConfig) : Dispatcher × BuildPhase :=
  match d.launchConfigDispatchers.get key with
  | some kd =>
    ({ d with launchConfigDispatchers := d.launchConfigDispatchers.moveToEnd key },
      .making kd (some d.launchConfigGeneration))
  | none => (d, .inserting d.launchConfigGeneration)

/-- Its second one, on the dispatcher that was made in between. -/
def insertPhase (d : Dispatcher) (key : LaunchConfig) (generation : Nat) : Dispatcher × BuildPhase :=
  if generation ≠ d.launchConfigGeneration then (d, .finding)
  else
    match d.launchConfigDispatchers.get key with
    | some existing =>
      ({ d with launchConfigDispatchers := d.launchConfigDispatchers.moveToEnd key }, .making existing (some generation))
    | none =>
      let kd := d.kernelDispatchers.length - 1
      (d.rememberKernelDispatcherLocked key kd true, .making kd (some generation))

def marshaller (key : ConfigureKey) (kernelDispatcher : Nat) (generation : Option Nat) : Marshaller :=
  { launcher := ⟨kernelDispatcher, key.config⟩
    extensions := key.extensionKey
    launchConfig := if key.launchConfigEnabled then some key.config else none
    availableLaunchConfig := key.config
    kernelDispatcher := kernelDispatcher
    launchConfigGeneration := generation
    adjusted := none }

/-- The last locked section, whose `finally` releases the event on every exit. -/
def finish (s : ConfigureState) (i : Nat) (key : ConfigureKey) (retries event m : Nat) : ConfigureState :=
  match s.d.configureCache.get key with
  | some cached => (s.release key event).hit i key cached
  | none =>
    if (s.d.marshallers[m]?).all fun m => s.d.marshallerStale key.launchConfigEnabled m then
      if configureCacheStaleRetryLimit ≤ retries + 1 then (s.release key event).setPc i .raised
      else (s.release key event).setPc i (.looking key (retries + 1))
    else ((s.store key m).release key event).setPc i (.returned m)

/-- A step, with the number `bornAt` for the native dispatchers it makes. -/
def step (bornAt : Nat) (s : ConfigureState) (e : ConfigureEvent) : Option ConfigureState :=
  match e with
  | .begin i config stream =>
    match s.threads i with
    | .idle => some (s.setPc i (.looking (configureKey usesLaunchConfig s.d config stream) 0))
    | _ => none
  | .look i =>
    match s.threads i with
    | .looking key retries => some (look s i key retries)
    | _ => none
  | .wake i =>
    match s.threads i with
    | .waiting key retries event => if s.d.isSet event then some (s.setPc i (.looking key retries)) else none
    | _ => none
  | .read i =>
    match s.threads i with
    | .building key retries event .reading =>
      some (s.setPc i (.building key retries event (readPhase usesLaunchConfig s.d key)))
    | _ => none
  | .find i =>
    match s.threads i with
    | .building key retries event .finding =>
      let (d, phase) := findPhase s.d key.config.key
      some ({ s with d := d }.setPc i (.building key retries event phase))
    | _ => none
  | .insert i =>
    match s.threads i with
    | .building key retries event (.inserting generation) =>
      let (d, phase) := insertPhase (s.d.newKernelDispatcher bornAt) key.config.key generation
      some ({ s with d := d }.setPc i (.building key retries event phase))
    | _ => none
  | .make i =>
    match s.threads i with
    | .building key retries event (.making kd generation) =>
      some ({ s with d := s.d.newMarshaller (marshaller key kd generation) }.setPc i
        (.building key retries event (.built s.d.marshallers.length)))
    | _ => none
  | .fail i =>
    match s.threads i with
    | .building key _ event _ => some ((s.release key event).setPc i .raised)
    | _ => none
  | .finish i =>
    match s.threads i with
    | .building key retries event (.built m) => some (finish s i key retries event m)
    | _ => none
  | .clearConfigureCache => some { s with d := s.d.clearConfigureCache }
  | .recordLiteralArgPositions positions => some { s with d := s.d.recordLiteralArgPositions positions bornAt }
  | .recompile => some { s with d := s.d.recompileLocked bornAt }
  | .markRequiresLaunchConfig => some { s with d := { s.d with requiresLaunchConfig := true } }
  | .setExtensions extensions => some { s with d := { s.d with extensions := extensions } }

end

end NumbaCudaMlir.Configure
