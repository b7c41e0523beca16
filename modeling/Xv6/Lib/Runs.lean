import Mathlib.Data.List.Basic

/-! Labelled transition systems given by a guard and an effect: reachable
states, finite runs, and the two rules every whole-run result here uses. An
invariant is proved from one step; a bound on how often something happens is
proved from a potential that pays for each occurrence. -/

namespace Xv6.Lib

structure System (State Action : Type) where
  Enabled : State → Action → Prop
  perform : State → Action → State

namespace System
variable {State Action Event : Type} (M : System State Action)

inductive Reachable (start : State) : State → Prop where
  | start : Reachable start start
  | next {s : State} {a : Action} : Reachable start s → M.Enabled s a →
      Reachable start (M.perform s a)

def after (s : State) (as : List Action) : State := as.foldl M.perform s

/-- Every action of the list is enabled in the state it is performed in. -/
def Legal : State → List Action → Prop
  | _, [] => True
  | s, a :: as => M.Enabled s a ∧ Legal (M.perform s a) as

instance decidableLegal [∀ s a, Decidable (M.Enabled s a)] :
    (s : State) → (as : List Action) → Decidable (M.Legal s as)
  | _, [] => .isTrue trivial
  | s, a :: as =>
    have := decidableLegal (M.perform s a) as
    inferInstanceAs (Decidable (M.Enabled s a ∧ M.Legal (M.perform s a) as))

/-- `P` holds in the first state of the run and in every state it reaches. -/
def Stays (P : State → Prop) : State → List Action → Prop
  | s, [] => P s
  | s, a :: as => P s ∧ Stays P (M.perform s a) as

instance decidableStays {P : State → Prop} [DecidablePred P] :
    (s : State) → (as : List Action) → Decidable (M.Stays P s as)
  | s, [] => inferInstanceAs (Decidable (P s))
  | s, a :: as =>
    have := decidableStays (P := P) (M.perform s a) as
    inferInstanceAs (Decidable (P s ∧ M.Stays P (M.perform s a) as))

/-- `Q` holds of every action in the state it is performed in. -/
def Every (Q : State → Action → Prop) : State → List Action → Prop
  | _, [] => True
  | s, a :: as => Q s a ∧ Every Q (M.perform s a) as

instance decidableEvery {Q : State → Action → Prop} [∀ s a, Decidable (Q s a)] :
    (s : State) → (as : List Action) → Decidable (M.Every Q s as)
  | _, [] => .isTrue trivial
  | s, a :: as =>
    have := decidableEvery (Q := Q) (M.perform s a) as
    inferInstanceAs (Decidable (Q s a ∧ M.Every Q (M.perform s a) as))

/-- What the run emits, in order. -/
def events (emit : State → Action → List Event) : State → List Action → List Event
  | _, [] => []
  | s, a :: as => emit s a ++ events emit (M.perform s a) as

@[simp] theorem after_nil (s : State) : M.after s [] = s := rfl

@[simp] theorem after_cons (s : State) (a : Action) (as : List Action) :
    M.after s (a :: as) = M.after (M.perform s a) as := rfl

theorem after_append (s : State) (as bs : List Action) :
    M.after s (as ++ bs) = M.after (M.after s as) bs := List.foldl_append

theorem legal_append (s : State) (as bs : List Action) :
    M.Legal s (as ++ bs) ↔ M.Legal s as ∧ M.Legal (M.after s as) bs := by
  induction as generalizing s with
  | nil => simp [Legal]
  | cons a as ih => simp only [List.cons_append, Legal, ih, after_cons, and_assoc]

theorem Reachable.after {M : System State Action} {start s : State} {as : List Action}
    (h : M.Reachable start s) (legal : M.Legal s as) : M.Reachable start (M.after s as) := by
  induction as generalizing s with
  | nil => exact h
  | cons a as ih => exact ih (.next h legal.1) legal.2

/-- What holds at the start and is kept by every enabled action holds in
every reachable state. -/
theorem Reachable.invariant {M : System State Action} {start s : State} {I : State → Prop}
    (h : M.Reachable start s) (initial : I start)
    (step : ∀ s a, M.Enabled s a → I s → I (M.perform s a)) : I s := by
  induction h with
  | start => exact initial
  | next _ enabled ih => exact step _ _ enabled ih

/-- An invariant over the state and what has been emitted so far, for runs
whose steps satisfy `Q`. -/
theorem events_invariant {emit : State → Action → List Event} {I : State → List Event → Prop}
    {Q : State → Action → Prop}
    (step : ∀ s a es, M.Enabled s a → Q s a → I s es → I (M.perform s a) (es ++ emit s a))
    {s : State} {es : List Event} {as : List Action} (legal : M.Legal s as) (h : M.Every Q s as)
    (initial : I s es) : I (M.after s as) (es ++ M.events emit s as) := by
  induction as generalizing s es with
  | nil => simpa [events] using initial
  | cons a as ih =>
    have rest := ih legal.2 h.2 (step s a es legal.1 h.1 initial)
    simpa only [after_cons, events, List.append_assoc] using rest

theorem every_imp {I : State → Prop} {Q Q' : State → Action → Prop}
    (keep : ∀ s a, M.Enabled s a → I s → I (M.perform s a))
    (step : ∀ s a, M.Enabled s a → I s → Q s a → Q' s a)
    {s : State} {as : List Action} (legal : M.Legal s as) (inv : I s) (h : M.Every Q s as) :
    M.Every Q' s as := by
  induction as generalizing s with
  | nil => trivial
  | cons a as ih =>
    exact ⟨step s a legal.1 inv h.1, ih legal.2 (keep s a legal.1 inv) h.2⟩

/-- Two conditions that agree on single steps agree on whole runs. -/
theorem every_iff {I : State → Prop} {Q Q' : State → Action → Prop}
    (keep : ∀ s a, M.Enabled s a → I s → I (M.perform s a))
    (step : ∀ s a, M.Enabled s a → I s → (Q s a ↔ Q' s a))
    {s : State} {as : List Action} (legal : M.Legal s as) (inv : I s) :
    M.Every Q s as ↔ M.Every Q' s as :=
  ⟨M.every_imp keep (fun s a enabled inv => (step s a enabled inv).mp) legal inv,
    M.every_imp keep (fun s a enabled inv => (step s a enabled inv).mpr) legal inv⟩

/-- What steps that satisfy `Q` keep holds all along a run of such steps. -/
theorem stays_of_every {I P : State → Prop} {Q : State → Action → Prop}
    (keep : ∀ s a, M.Enabled s a → I s → Q s a → I (M.perform s a)) (weaken : ∀ s, I s → P s)
    {s : State} {as : List Action} (legal : M.Legal s as) (inv : I s) (h : M.Every Q s as) :
    M.Stays P s as := by
  induction as generalizing s with
  | nil => exact weaken s inv
  | cons a as ih => exact ⟨weaken s inv, ih legal.2 (keep s a legal.1 inv h.1) h.2⟩

/-- If `Q` is just what a step needs to keep `P`, then `P` holds all along a run
exactly if every step of the run meets `Q`. -/
theorem stays_iff_every {I P : State → Prop} {Q : State → Action → Prop}
    (keep : ∀ s a, M.Enabled s a → I s → I (M.perform s a))
    (step : ∀ s a, M.Enabled s a → I s → P s → (P (M.perform s a) ↔ Q s a))
    {s : State} {as : List Action} (legal : M.Legal s as) (inv : I s) (initial : P s) :
    M.Stays P s as ↔ M.Every Q s as := by
  induction as generalizing s with
  | nil => exact ⟨fun _ => trivial, fun _ => initial⟩
  | cons a as ih =>
    have next := step s a legal.1 inv initial
    have rest := ih legal.2 (keep s a legal.1 inv)
    constructor
    · rintro ⟨_, stays⟩
      have here : P (M.perform s a) := by
        cases as with
        | nil => exact stays
        | cons b bs => exact stays.1
      exact ⟨next.mp here, (rest here).mp stays⟩
    · rintro ⟨here, every⟩
      exact ⟨initial, (rest (next.mpr here)).mpr every⟩

theorem every_and {Q Q' : State → Action → Prop} {s : State} {as : List Action}
    (h : M.Every Q s as) (h' : M.Every Q' s as) : M.Every (fun s a => Q s a ∧ Q' s a) s as := by
  induction as generalizing s with
  | nil => trivial
  | cons a as ih => exact ⟨⟨h.1, h'.1⟩, ih h.2 h'.2⟩

theorem every_of_stays {P : State → Prop} {s : State} {as : List Action} (h : M.Stays P s as) :
    P s ∧ M.Every (fun s a => P (M.perform s a)) s as := by
  induction as generalizing s with
  | nil => exact ⟨h, trivial⟩
  | cons a as ih => exact ⟨h.1, ih h.2⟩

theorem every_of_forall_events {emit : State → Action → List Event} {P : Event → Prop} {s : State}
    {as : List Action} (h : ∀ e ∈ M.events emit s as, P e) :
    M.Every (fun s a => ∀ e ∈ emit s a, P e) s as := by
  induction as generalizing s with
  | nil => trivial
  | cons a as ih =>
    simp only [events, List.mem_append] at h
    exact ⟨fun e he => h e (.inl he), ih fun e he => h e (.inr he)⟩

/-- Amortised counting. If each step's counted events are paid for by a drop
of the potential `m`, a run emits at most as many as the potential it starts
with. `Q` is what is assumed of the steps of this run. -/
theorem countP_events_le {emit : State → Action → List Event} {counted : Event → Bool}
    {I : State → Prop} {Q : State → Action → Prop} {m : State → Nat}
    (keep : ∀ s a, M.Enabled s a → I s → Q s a → I (M.perform s a))
    (pay : ∀ s a, M.Enabled s a → I s → Q s a →
      m (M.perform s a) + (emit s a).countP counted ≤ m s)
    {s : State} {as : List Action} (legal : M.Legal s as) (inv : I s) (every : M.Every Q s as) :
    (M.events emit s as).countP counted ≤ m s := by
  induction as generalizing s with
  | nil => simp [events]
  | cons a as ih =>
    have rest := ih legal.2 (keep s a legal.1 inv every.1) every.2
    have paid := pay s a legal.1 inv every.1
    simp only [events, List.countP_append]
    omega

/-- A value carried along the run, updated from what each step does. -/
def track {H : Type} (f : State → Action → H → H) : State → List Action → H → H
  | _, [], h => h
  | s, a :: as, h => track f (M.perform s a) as (f s a h)

theorem track_invariant_of_every {H : Type} {f : State → Action → H → H} {I : State → H → Prop}
    {Q : State → Action → Prop}
    (step : ∀ s a h, M.Enabled s a → Q s a → I s h → I (M.perform s a) (f s a h))
    {s : State} {as : List Action} {h : H} (legal : M.Legal s as) (every : M.Every Q s as)
    (initial : I s h) : I (M.after s as) (M.track f s as h) := by
  induction as generalizing s h with
  | nil => exact initial
  | cons a as ih => exact ih legal.2 every.2 (step s a h legal.1 every.1 initial)

theorem every_true (s : State) (as : List Action) : M.Every (fun _ _ => True) s as := by
  induction as generalizing s with
  | nil => trivial
  | cons a as ih => exact ⟨trivial, ih _⟩

theorem track_invariant {H : Type} {f : State → Action → H → H} {I : State → H → Prop}
    (step : ∀ s a h, M.Enabled s a → I s h → I (M.perform s a) (f s a h))
    {s : State} {as : List Action} {h : H} (legal : M.Legal s as) (initial : I s h) :
    I (M.after s as) (M.track f s as h) :=
  M.track_invariant_of_every (fun s a h enabled _ => step s a h enabled) legal (M.every_true s as)
    initial

/-- `Q` holds of every action, with the value carried along up to it. -/
def EveryTracked {H : Type} (f : State → Action → H → H) (Q : State → H → Action → Prop) :
    State → H → List Action → Prop
  | _, _, [] => True
  | s, h, a :: as => Q s h a ∧ EveryTracked f Q (M.perform s a) (f s a h) as

instance decidableEveryTracked {H : Type} {f : State → Action → H → H}
    {Q : State → H → Action → Prop} [∀ s h a, Decidable (Q s h a)] :
    (s : State) → (h : H) → (as : List Action) → Decidable (M.EveryTracked f Q s h as)
  | _, _, [] => .isTrue trivial
  | s, h, a :: as =>
    have := decidableEveryTracked (f := f) (Q := Q) (M.perform s a) (f s a h) as
    inferInstanceAs (Decidable (Q s h a ∧ M.EveryTracked f Q (M.perform s a) (f s a h) as))

theorem everyTracked_iff_every {H : Type} {f : State → Action → H → H} {I : State → H → Prop}
    {Q : State → H → Action → Prop} {Q' : State → Action → Prop}
    (keep : ∀ s a h, M.Enabled s a → I s h → I (M.perform s a) (f s a h))
    (step : ∀ s a h, M.Enabled s a → I s h → (Q s h a ↔ Q' s a))
    {s : State} {h : H} {as : List Action} (legal : M.Legal s as) (inv : I s h) :
    M.EveryTracked f Q s h as ↔ M.Every Q' s as := by
  induction as generalizing s h with
  | nil => exact Iff.rfl
  | cons a as ih =>
    exact and_congr (step s a h legal.1 inv) (ih legal.2 (keep s a h legal.1 inv))

/-- What an invariant of the carried value gives for each step of a run. -/
theorem everyTracked_of_every {H : Type} {f : State → Action → H → H} {I : State → H → Prop}
    {Q : State → Action → Prop} {Q' : State → H → Action → Prop}
    (keep : ∀ s a h, M.Enabled s a → Q s a → I s h → I (M.perform s a) (f s a h))
    (step : ∀ s a h, M.Enabled s a → Q s a → I s h → Q' s h a)
    {s : State} {h : H} {as : List Action} (legal : M.Legal s as) (every : M.Every Q s as)
    (inv : I s h) : M.EveryTracked f Q' s h as := by
  induction as generalizing s h with
  | nil => trivial
  | cons a as ih =>
    exact ⟨step s a h legal.1 every.1 inv,
      ih legal.2 every.2 (keep s a h legal.1 every.1 inv)⟩

/-- `track_invariant` for runs whose steps satisfy `Q`. -/
theorem track_invariant_of_everyTracked {H : Type} {f : State → Action → H → H}
    {I : State → H → Prop} {Q : State → H → Action → Prop}
    (step : ∀ s a h, M.Enabled s a → Q s h a → I s h → I (M.perform s a) (f s a h))
    {s : State} {as : List Action} {h : H} (legal : M.Legal s as)
    (every : M.EveryTracked f Q s h as) (initial : I s h) :
    I (M.after s as) (M.track f s as h) := by
  induction as generalizing s h with
  | nil => exact initial
  | cons a as ih => exact ih legal.2 every.2 (step s a h legal.1 every.1 initial)

end System
end Xv6.Lib
