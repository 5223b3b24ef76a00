import Mathlib

/-!
# State transformers that can halt

A program reads and updates a state and either returns a value or halts for a reason; a halt
keeps the state it happened in, so that what was done before it stays visible. `wp` is the
weakest precondition of a program for a postcondition on returns and one on halts, and
`runAll` runs a list of operations in order.
-/
namespace WasmCxxShim.HaltingPrograms

inductive Outcome (ε σ α : Type)
  | ok (value : α) (state : σ)
  | halt (reason : ε) (state : σ)

/-- The value a program returns, if it does. -/
def Outcome.result {ε σ α : Type} : Outcome ε σ α → Option α
  | .ok a _ => some a
  | .halt _ _ => none

def Program (ε σ α : Type) := σ → Outcome ε σ α

variable {ε σ α β : Type}

instance : Monad (Program ε σ) where
  pure a := fun s => .ok a s
  bind m f := fun s =>
    match m s with
    | .ok a s' => f a s'
    | .halt e s' => .halt e s'

/-- The state a program ends in, whether it returns or halts. -/
def Outcome.state : Outcome ε σ α → σ
  | .ok _ s => s
  | .halt _ s => s

/-- Why a program halts, if it does. -/
def Outcome.reason : Outcome ε σ α → Option ε
  | .ok _ _ => none
  | .halt e _ => some e

def read : Program ε σ σ := fun s => .ok s s

def modify (f : σ → σ) : Program ε σ Unit := fun s => .ok () (f s)

def halt (e : ε) : Program ε σ α := fun s => .halt e s

/-- Run a program on a component of the state. -/
def within {τ : Type} (get : σ → τ) (put : τ → σ → σ) (m : Program ε τ α) : Program ε σ α :=
  fun s =>
    match m (get s) with
    | .ok a t => .ok a (put t s)
    | .halt e t => .halt e (put t s)

@[simp] theorem pure_apply (a : α) (s : σ) : (pure a : Program ε σ α) s = .ok a s := rfl

theorem bind_ok {m : Program ε σ α} {f : α → Program ε σ β} {s s' : σ} {a : α}
    (h : m s = .ok a s') : (m >>= f) s = f a s' := by
  change (match m s with | .ok a s' => f a s' | .halt e s' => .halt e s') = f a s'
  rw [h]

theorem bind_halt {m : Program ε σ α} {f : α → Program ε σ β} {s s' : σ} {e : ε}
    (h : m s = .halt e s') : (m >>= f) s = .halt e s' := by
  change (match m s with | .ok a s' => f a s' | .halt e s' => .halt e s') = .halt e s'
  rw [h]

@[simp] theorem pure_bind_apply (a : α) (f : α → Program ε σ β) (s : σ) :
    ((pure a : Program ε σ α) >>= f) s = f a s := bind_ok rfl

@[simp] theorem read_bind_apply (f : σ → Program ε σ β) (s : σ) : (read >>= f) s = f s s :=
  bind_ok rfl

@[simp] theorem modify_bind_apply (g : σ → σ) (f : Unit → Program ε σ β) (s : σ) :
    (modify g >>= f) s = f () (g s) := bind_ok rfl

@[simp] theorem halt_bind_apply (e : ε) (f : α → Program ε σ β) (s : σ) :
    ((halt e : Program ε σ α) >>= f) s = .halt e s := bind_halt rfl

/-- Every return satisfies `post` and every halt satisfies `onHalt`. -/
def Outcome.Meets (post : α → σ → Prop) (onHalt : ε → σ → Prop) : Outcome ε σ α → Prop
  | .ok a s => post a s
  | .halt e s => onHalt e s

def wp (m : Program ε σ α) (post : α → σ → Prop) (onHalt : ε → σ → Prop) (s : σ) : Prop :=
  (m s).Meets post onHalt

variable {post : α → σ → Prop} {onHalt : ε → σ → Prop}

@[simp] theorem wp_read {post : σ → σ → Prop} {s : σ} :
    wp (read : Program ε σ σ) post onHalt s ↔ post s s := Iff.rfl

@[simp] theorem wp_bind {m : Program ε σ α} {f : α → Program ε σ β} {post : β → σ → Prop}
    {s : σ} :
    wp (m >>= f) post onHalt s ↔ wp m (fun a s' => wp (f a) post onHalt s') onHalt s := by
  unfold wp
  cases h : m s with
  | ok a s' =>
    rw [bind_ok h]
    rfl
  | halt e s' =>
    rw [bind_halt h]
    rfl

@[simp] theorem wp_within {τ : Type} {get : σ → τ} {put : τ → σ → σ} {m : Program ε τ α} {s : σ} :
    wp (within get put m) post onHalt s ↔
      wp m (fun a t => post a (put t s)) (fun e t => onHalt e (put t s)) (get s) := by
  unfold wp within
  cases m (get s) <;> rfl

theorem wp_mono {m : Program ε σ α} {post' : α → σ → Prop} {onHalt' : ε → σ → Prop} {s : σ}
    (h : wp m post onHalt s) (hpost : ∀ a s', post a s' → post' a s')
    (hhalt : ∀ e s', onHalt e s' → onHalt' e s') : wp m post' onHalt' s := by
  unfold wp at h ⊢
  cases hm : m s with
  | ok a s' =>
    rw [hm] at h
    exact hpost a s' h
  | halt e s' =>
    rw [hm] at h
    exact hhalt e s' h

theorem wp_and {m : Program ε σ α} {post' : α → σ → Prop} {onHalt' : ε → σ → Prop} {s : σ}
    (h : wp m post onHalt s) (h' : wp m post' onHalt' s) :
    wp m (fun a s' => post a s' ∧ post' a s') (fun e s' => onHalt e s' ∧ onHalt' e s') s := by
  unfold wp at h h' ⊢
  cases hm : m s with
  | ok a s' =>
    rw [hm] at h h'
    exact ⟨h, h'⟩
  | halt e s' =>
    rw [hm] at h h'
    exact ⟨h, h'⟩

theorem wp_ok {m : Program ε σ α} {s s' : σ} {a : α} (h : wp m post onHalt s)
    (hm : m s = .ok a s') : post a s' := by
  unfold wp at h
  rwa [hm] at h

theorem Outcome.eq_ok {o : Outcome ε σ α} {a : α} (h : o.result = some a) : o = .ok a o.state := by
  cases o with
  | ok b s =>
    cases h
    rfl
  | halt e s => cases h

theorem wp_true (m : Program ε σ α) (s : σ) : wp m (fun _ _ => True) (fun _ _ => True) s := by
  unfold wp
  cases m s <;> exact trivial

theorem wp_reason {m : Program ε σ α} {s : σ} {e : ε} (h : wp m post onHalt s)
    (hm : (m s).reason = some e) : onHalt e (m s).state := by
  unfold wp at h
  cases hrun : m s with
  | ok a s' =>
    rw [hrun] at hm
    cases hm
  | halt e' s' =>
    rw [hrun] at h hm
    cases hm
    exact h

theorem wp_returns {m : Program ε σ α} {s : σ} (h : wp m post onHalt s)
    (hm : (m s).reason = none) : ∃ a, post a (m s).state := by
  unfold wp at h
  cases hrun : m s with
  | ok a s' =>
    rw [hrun] at h
    exact ⟨a, h⟩
  | halt e s' =>
    rw [hrun] at hm
    cases hm

variable {ω : Type}

/-- Run the operations in order, up to the first halt. -/
def runAll (step : ω → Program ε σ Unit) : List ω → Program ε σ Unit
  | [] => pure ()
  | op :: ops => step op >>= fun _ => runAll step ops

/-- Every operation of the run satisfies `good` in the state it starts from. -/
def Along (step : ω → Program ε σ Unit) (good : ω → σ → Prop) : List ω → σ → Prop
  | [], _ => True
  | op :: ops, s => good op s ∧ ∀ s', step op s = .ok () s' → Along step good ops s'

instance Along.decidable {step : ω → Program ε σ Unit} {good : ω → σ → Prop}
    [∀ op s, Decidable (good op s)] : (ops : List ω) → (s : σ) → Decidable (Along step good ops s)
  | [], _ => .isTrue trivial
  | op :: ops, s =>
    match h : step op s with
    | .ok () s' =>
      have : Decidable (Along step good ops s') := Along.decidable ops s'
      decidable_of_iff (good op s ∧ Along step good ops s')
        (and_congr_right fun _ => ⟨fun hs t ht => by rw [h] at ht; cases ht; exact hs,
          fun hs => hs s' h⟩)
    | .halt _ _ =>
      decidable_of_iff (good op s)
        ⟨fun hs => ⟨hs, fun t ht => by rw [h] at ht; cases ht⟩, fun hs => hs.1⟩

theorem along_true (step : ω → Program ε σ Unit) (ops : List ω) (s : σ) :
    Along step (fun _ _ => True) ops s := by
  induction ops generalizing s with
  | nil => exact trivial
  | cons op ops ih => exact ⟨trivial, fun s' _ => ih s'⟩

/-- An invariant that every good operation keeps holds at the end of every good run. -/
theorem runAll_wp {step : ω → Program ε σ Unit} {good : ω → σ → Prop} (inv : σ → Prop)
    {onHalt : ε → σ → Prop}
    (hstep : ∀ op s, inv s → good op s → wp (step op) (fun _ s' => inv s') onHalt s)
    (ops : List ω) {s : σ} (hs : inv s) (hgood : Along step good ops s) :
    wp (runAll step ops) (fun _ s' => inv s') onHalt s := by
  induction ops generalizing s with
  | nil => exact hs
  | cons op ops ih =>
    have hop := hstep op s hs hgood.1
    rw [runAll, wp_bind]
    unfold wp at hop ⊢
    cases hrun : step op s with
    | ok u s' =>
      rw [hrun] at hop
      exact ih hop (hgood.2 s' hrun)
    | halt e s' =>
      rw [hrun] at hop
      exact hop

/-- What an invariant implies of good operations holds along every good run. -/
theorem along_of_inv {step : ω → Program ε σ Unit} {good good' : ω → σ → Prop} (inv : σ → Prop)
    {onHalt : ε → σ → Prop}
    (hstep : ∀ op s, inv s → good op s → wp (step op) (fun _ s' => inv s') onHalt s)
    (himp : ∀ op s, inv s → good op s → good' op s)
    (ops : List ω) {s : σ} (hs : inv s) (hgood : Along step good ops s) :
    Along step good' ops s := by
  induction ops generalizing s with
  | nil => exact trivial
  | cons op ops ih =>
    refine ⟨himp op s hs hgood.1, fun s' hrun => ?_⟩
    have hafter := wp_ok (hstep op s hs hgood.1) hrun
    exact ih hafter (hgood.2 s' hrun)

/-- What every operation must satisfy for its halts to be allowed holds along every run whose
halts are allowed. -/
theorem along_of_runAll_wp {step : ω → Program ε σ Unit} {good : ω → σ → Prop}
    (onHalt : ε → σ → Prop)
    (hstep : ∀ op s, wp (step op) (fun _ _ => True) onHalt s → good op s)
    (ops : List ω) {s : σ} (h : wp (runAll step ops) (fun _ _ => True) onHalt s) :
    Along step good ops s := by
  induction ops generalizing s with
  | nil => exact trivial
  | cons op ops ih =>
    rw [runAll, wp_bind] at h
    refine ⟨hstep op s (wp_mono h (fun _ _ _ => trivial) fun _ _ h => h), fun s' hrun => ?_⟩
    have hrest := wp_ok h hrun
    exact ih hrest

end WasmCxxShim.HaltingPrograms
