import Mathlib

/-!
# Histories of calls

A component takes a request and its state to an answer and a new state. The history of a list of
requests keeps every call with the state before and after it, so that a law relating the answers
of different calls is a statement about one list.
-/
namespace WasmCxxShim.CallHistories

structure Call (σ α β : Type*) where
  request : α
  before : σ
  answer : β
  after : σ

variable {σ α β γ : Type*} {step : α → σ → β × σ}

def history (step : α → σ → β × σ) : σ → List α → List (Call σ α β)
  | _, [] => []
  | s, a :: as => ⟨a, s, (step a s).1, (step a s).2⟩ :: history step (step a s).2 as

/-- Every call of a history is one step made for one of the requests. -/
theorem of_mem_history {s : σ} {as : List α} {c : Call σ α β} (h : c ∈ history step s as) :
    c.request ∈ as ∧ c.answer = (step c.request c.before).1 ∧
      c.after = (step c.request c.before).2 := by
  induction as generalizing s with
  | nil => simp [history] at h
  | cons a as ih =>
    rcases List.mem_cons.mp h with rfl | h
    · exact ⟨List.mem_cons_self, rfl, rfl⟩
    · obtain ⟨hmem, hstep⟩ := ih h
      exact ⟨List.mem_cons_of_mem a hmem, hstep⟩

/-- What follows a call is the history of the remaining requests from the state it left. -/
theorem history_after_call {s : σ} {as : List α} {xs ys : List (Call σ α β)} {c : Call σ α β}
    (h : history step s as = xs ++ c :: ys) : ∃ bs, ys = history step c.after bs := by
  induction xs generalizing s as with
  | nil =>
    cases as with
    | nil => simp [history] at h
    | cons a as =>
      simp only [history, List.nil_append, List.cons.injEq] at h
      obtain ⟨rfl, rfl⟩ := h
      exact ⟨as, rfl⟩
  | cons x xs ih =>
    cases as with
    | nil => simp [history] at h
    | cons a as =>
      simp only [history, List.cons_append, List.cons.injEq] at h
      exact ih h.2

/-- Calls that leave a view of the state alone hand it on to the next call. -/
theorem view_before_call (view : σ → γ) {s : σ} {as : List α} {xs ys : List (Call σ α β)}
    {c : Call σ α β} (h : history step s as = xs ++ c :: ys)
    (still : ∀ x ∈ xs, view x.after = view x.before) : view c.before = view s := by
  induction xs generalizing s as with
  | nil =>
    cases as with
    | nil => simp [history] at h
    | cons a as =>
      simp only [history, List.nil_append, List.cons.injEq] at h
      rw [← h.1]
  | cons x xs ih =>
    cases as with
    | nil => simp [history] at h
    | cons a as =>
      simp only [history, List.cons_append, List.cons.injEq] at h
      obtain ⟨rfl, h⟩ := h
      have hfirst := still _ List.mem_cons_self
      exact (ih h fun x hx => still x (List.mem_cons_of_mem _ hx)).trans hfirst

/-- If every step takes a view of the state up, the view climbs along the history. -/
theorem history_climbs [Preorder γ] (view : σ → γ) {as : List α}
    (up : ∀ a ∈ as, ∀ s, view s ≤ view (step a s).2) (s : σ) :
    (∀ c ∈ history step s as, view s ≤ view c.before) ∧
      (history step s as).Pairwise fun c d => view c.before ≤ view d.before := by
  induction as generalizing s with
  | nil => simp [history]
  | cons a as ih =>
    obtain ⟨hfrom, hpair⟩ := ih (fun b hb => up b (List.mem_cons_of_mem a hb)) (step a s).2
    have hup := up a List.mem_cons_self s
    refine ⟨fun c hc => ?_, List.Pairwise.cons (fun c hc => hup.trans (hfrom c hc)) hpair⟩
    rcases List.mem_cons.mp hc with rfl | hc
    · exact le_rfl
    · exact hup.trans (hfrom c hc)

end WasmCxxShim.CallHistories
