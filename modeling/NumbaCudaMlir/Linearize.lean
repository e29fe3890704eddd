import NumbaCudaMlir.Runs

/-!
# Linearizability

An object applies an operation to its cell at one instant and answers with a
result. A system whose runs show calls, returns and plain stores is linearizable
where instants can be put between them such that the object goes through the
same cells: `exists_follows` gets them from a simulation of single steps.
-/

namespace Linearize

open Runs

section
variable {ι Op Ret σ : Type}

inductive Phase (Op Ret : Type) where
  | idle
  | called (op : Op)
  | done (result : Ret)

structure State (ι Op Ret σ : Type) where
  cell : σ
  threads : ι → Phase Op Ret

inductive Event (ι Op Ret σ : Type) where
  | call (t : ι) (op : Op)
  | effect (t : ι)
  | ret (t : ι) (result : Ret)
  | store (value : σ)

/-- An effect is not seen from outside. -/
def Event.visible : Event ι Op Ret σ → Option (Event ι Op Ret σ)
  | effect _ => none
  | e => some e

variable [DecidableEq ι] [DecidableEq Ret]

/-- The object: an operation takes effect once between its call and its return. -/
def step (apply : Op → σ → σ × Ret) (s : State ι Op Ret σ) : Event ι Op Ret σ → Option (State ι Op Ret σ)
  | .call t op =>
    match s.threads t with
    | .idle => some { s with threads := setAt s.threads t (.called op) }
    | _ => none
  | .effect t =>
    match s.threads t with
    | .called op => some ⟨(apply op s.cell).1, setAt s.threads t (.done (apply op s.cell).2)⟩
    | _ => none
  | .ret t result =>
    match s.threads t with
    | .done r => if r = result then some { s with threads := setAt s.threads t .idle } else none
    | _ => none
  | .store value => some { s with cell := value }

/-! ## Systems over the object -/

variable {S ε : Type} (apply : Op → σ → σ × Ret) (next : S → ε → Option S) (cell : S → σ) (shown : ε → Option (Event ι Op Ret σ))

/-- The object goes along with a run: for each of its events the object takes
steps that show the same, and has the same cell before and after. -/
inductive Follows : S → State ι Op Ret σ → List ε → List (List (Event ι Op Ret σ)) → Prop
  | nil {s : S} {a : State ι Op Ret σ} (hcell : cell s = a.cell) : Follows s a [] []
  | cons {s s' : S} {a a' : State ι Op Ret σ} {e : ε} {es : List ε} {fs : List (Event ι Op Ret σ)} {fss : List (List (Event ι Op Ret σ))}
      (hcell : cell s = a.cell) (hstep : next s e = some s') (hrun : run (step apply) a fs = some a')
      (hshown : fs.filterMap Event.visible = (shown e).toList) (hrest : Follows s' a' es fss) : Follows s a (e :: es) (fs :: fss)

variable {apply next cell shown}

/-- A simulation of single steps. -/
structure Simulation (apply : Op → σ → σ × Ret) (next : S → ε → Option S) (cell : S → σ) (shown : ε → Option (Event ι Op Ret σ))
    (R : S → State ι Op Ret σ → Prop) : Prop where
  cell_eq : ∀ {s a}, R s a → cell s = a.cell
  step : ∀ {s a e s'}, R s a → next s e = some s' →
    ∃ fs a', run (Linearize.step apply) a fs = some a' ∧ fs.filterMap Event.visible = (shown e).toList ∧ R s' a'

theorem exists_follows {R : S → State ι Op Ret σ → Prop} (h : Simulation apply next cell shown R) {es : List ε} {s s' : S}
    {a : State ι Op Ret σ} (hR : R s a) (hrun : run next s es = some s') : ∃ fss, Follows apply next cell shown s a es fss := by
  induction es generalizing s a with
  | nil => exact ⟨[], .nil (h.cell_eq hR)⟩
  | cons e es ih =>
    obtain ⟨m, hm, hrest⟩ := run_cons_some next hrun
    obtain ⟨fs, a', hfs, hshown, hR'⟩ := h.step hR hm
    obtain ⟨fss, hfollows⟩ := ih hR' hrest
    exact ⟨fs :: fss, .cons (h.cell_eq hR) hm hfs hshown hfollows⟩

/-! ## Steps of the object -/

variable {a : State ι Op Ret σ} {t : ι}

theorem step_call {op : Op} (h : a.threads t = .idle) :
    step apply a (.call t op) = some { a with threads := setAt a.threads t (.called op) } := by
  simp only [step, h]

theorem step_effect {op : Op} (h : a.threads t = .called op) :
    step apply a (.effect t) = some ⟨(apply op a.cell).1, setAt a.threads t (.done (apply op a.cell).2)⟩ := by
  simp only [step, h]

theorem step_ret {r : Ret} (h : a.threads t = .done r) : step apply a (.ret t r) = some { a with threads := setAt a.threads t .idle } := by
  simp only [step, h, if_true]

end

end Linearize
