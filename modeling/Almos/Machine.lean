import Mathlib

/-!
# Machines and the states they reach

A machine has initial states and a partial step for each event. What the
environment decides (the outcome of an allocation, the contents of fresh memory)
is part of the event, so a step is a function. `Reach M ok` collects the states
of the runs whose steps all meet the guard `ok`.
-/
namespace Almos

structure Machine (σ ε : Type*) where
  init : σ → Prop
  step : σ → ε → Option σ

namespace Machine
variable {σ ε : Type*}

inductive Reach (M : Machine σ ε) (ok : σ → ε → Prop) : σ → Prop
  | init {s : σ} (start : M.init s) : Reach M ok s
  | step {s t : σ} {e : ε} (prior : Reach M ok s) (guard : ok s e)
      (next : M.step s e = some t) : Reach M ok t

def Reachable (M : Machine σ ε) : σ → Prop := Reach M fun _ _ => True

variable {M : Machine σ ε} {ok : σ → ε → Prop}

/-- Invariant rule: what holds initially and survives each guarded step holds in
every state reached. -/
theorem Reach.invariant {I : σ → Prop} (base : ∀ s, M.init s → I s)
    (keep : ∀ s e t, I s → ok s e → M.step s e = some t → I t)
    {s : σ} (h : Reach M ok s) : I s := by
  induction h with
  | init start => exact base _ start
  | step _ guard next ih => exact keep _ _ _ ih guard next

theorem Reachable.invariant {I : σ → Prop} (base : ∀ s, M.init s → I s)
    (keep : ∀ s e t, I s → M.step s e = some t → I t)
    {s : σ} (h : Reachable M s) : I s :=
  Reach.invariant base (fun s e t hi _ hs => keep s e t hi hs) h

/-- The state after a list of events, if every step is defined. -/
def run (M : Machine σ ε) (s : σ) (es : List ε) : Option σ := es.foldlM M.step s

theorem Reach.mono {ok' : σ → ε → Prop} (hok : ∀ s e, ok s e → ok' s e) {s : σ}
    (h : Reach M ok s) : Reach M ok' s := by
  induction h with
  | init start => exact .init start
  | step _ guard next ih => exact .step ih (hok _ _ guard) next

theorem Reach.run {s t : σ} (hs : Reach M ok s) (es : List ε) (hok : ∀ e ∈ es, ∀ s, ok s e)
    (h : M.run s es = some t) : Reach M ok t := by
  induction es generalizing s with
  | nil =>
    obtain rfl : s = t := by simpa [Machine.run] using h
    exact hs
  | cons e es ih =>
    obtain ⟨u, hu, hrest⟩ : ∃ u, M.step s e = some u ∧ M.run u es = some t := by
      simpa [Machine.run, List.foldlM_cons, Option.bind_eq_some_iff] using h
    exact ih (.step hs (hok e List.mem_cons_self s) hu)
      (fun e he => hok e (List.mem_cons_of_mem _ he)) hrest

theorem Reachable.run {s t : σ} (hs : Reachable M s) (es : List ε) (h : M.run s es = some t) :
    Reachable M t :=
  Reach.run hs es (fun _ _ _ => trivial) h

/-- The machine with only the steps that meet a condition. -/
def restrict (M : Machine σ ε) (p : σ → ε → Bool) : Machine σ ε where
  init := M.init
  step s e := if p s e = true then M.step s e else none

theorem Reachable.of_restrict {p : σ → ε → Bool} (hp : ∀ s e, p s e = true → ok s e) {s : σ}
    (h : Reachable (M.restrict p) s) : Reach M ok s := by
  induction h with
  | init start => exact .init start
  | step _ _ next ih =>
    simp only [restrict] at next
    split_ifs at next with hguard
    exact .step ih (hp _ _ hguard) next

theorem Reach.of_run {p : σ → ε → Bool} (hp : ∀ s e, p s e = true → ok s e) {s t : σ} {es : List ε}
    (hs : M.init s) (h : (M.restrict p).run s es = some t) : Reach M ok t :=
  Reachable.of_restrict hp (.run (.init hs) es h)

end Machine
end Almos
