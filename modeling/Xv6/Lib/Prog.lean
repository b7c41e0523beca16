import Mathlib.Data.List.Basic

/-! Programs over a state that return a result or halt for good. A run is taken
apart by inversion: what a sequence returns comes from what its parts return. -/

namespace Xv6.Lib

def Prog (σ α : Type) := σ → Option (α × σ)

namespace Prog
variable {σ τ α β : Type}

instance : Monad (Prog σ) where
  pure a := fun s => some (a, s)
  bind x f := fun s =>
    match x s with
    | some (a, s') => f a s'
    | none => none

/-- The program never returns. -/
def halt : Prog σ α := fun _ => none

def get : Prog σ σ := fun s => some (s, s)

def modify (f : σ → σ) : Prog σ Unit := fun s => some ((), f s)

/-- A program over a part of the state. -/
def onPart (part : τ → σ) (put : τ → σ → τ) (x : Prog σ α) : Prog τ α := fun t =>
  match x (part t) with
  | some (a, s) => some (a, put t s)
  | none => none

/-- The program for each element in turn. -/
def each (f : α → Prog σ Unit) : List α → Prog σ Unit
  | [] => pure ()
  | a :: as => do
    f a
    each f as

/-- The program, if a condition holds. -/
def when (c : Prop) [Decidable c] (x : Prog σ Unit) : Prog σ Unit := if c then x else pure ()

variable {s s' : σ} {a a' : α} {b : β}

theorem when_pos {c : Prop} [Decidable c] (h : c) (x : Prog σ Unit) : when c x = x := if_pos h

theorem when_neg {c : Prop} [Decidable c] (h : ¬ c) (x : Prog σ Unit) : when c x = pure () := if_neg h

@[simp] theorem pure_eq_some : (pure a : Prog σ α) s = some (a', s') ↔ a = a' ∧ s = s' := by
  simp [Pure.pure]

theorem bind_eq_some {x : Prog σ α} {f : α → Prog σ β} :
    (x >>= f) s = some (b, s') ↔ ∃ a t, x s = some (a, t) ∧ f a t = some (b, s') := by
  simp only [Bind.bind]
  cases x s with
  | none => simp
  | some r =>
    obtain ⟨a, t⟩ := r
    simp

@[simp] theorem halt_eq_some : (halt : Prog σ α) s = some (a, s') ↔ False := by
  simp [halt]

@[simp] theorem get_eq_some {t : σ} : (get : Prog σ σ) s = some (t, s') ↔ s = t ∧ s = s' := by
  simp [get]

@[simp] theorem modify_eq_some {f : σ → σ} {u : Unit} :
    modify f s = some (u, s') ↔ f s = s' := by
  simp [modify]

theorem run_bind {x : Prog σ α} {f : α → Prog σ β} (first : x s = some (a, s')) :
    (x >>= f) s = f a s' := by
  simp only [Bind.bind, first]

theorem run_get_bind (f : σ → Prog σ β) (s : σ) : (get >>= f) s = f s s := rfl

/-- A run whose first part is known. -/
theorem follow {x : Prog σ α} {f : α → Prog σ β} {r : Option (β × σ)} (run : (x >>= f) s = r)
    (first : x s = some (a, s')) : f a s' = r := by
  simp only [Bind.bind, first] at run
  exact run

theorem not_follow {x : Prog σ α} {f : α → Prog σ β} (run : (x >>= f) s = some (b, s'))
    (halts : x s = none) : False := by
  simp only [Bind.bind, halts] at run
  cases run

theorem onPart_eq_some {part : τ → σ} {put : τ → σ → τ} {x : Prog σ α} {t t' : τ} :
    x.onPart part put t = some (a, t') ↔ ∃ s, x (part t) = some (a, s) ∧ put t s = t' := by
  unfold onPart
  cases x (part t) with
  | none => simp
  | some r =>
    obtain ⟨a', s⟩ := r
    simp only [Option.some.injEq, Prod.mk.injEq]
    constructor
    · rintro ⟨rfl, rfl⟩
      exact ⟨s, ⟨rfl, rfl⟩, rfl⟩
    · rintro ⟨_, ⟨rfl, rfl⟩, rfl⟩
      exact ⟨rfl, rfl⟩

/-! ## Programs that return -/

def Returns (x : Prog σ α) (s : σ) : Prop := ∃ a s', x s = some (a, s')

theorem Returns.pure (a : α) (s : σ) : (Pure.pure a : Prog σ α).Returns s := ⟨a, s, rfl⟩

theorem Returns.get (s : σ) : (Prog.get : Prog σ σ).Returns s := ⟨s, s, rfl⟩

theorem Returns.modify (f : σ → σ) (s : σ) : (Prog.modify f).Returns s := ⟨(), f s, rfl⟩

/-- A sequence returns if its first part does and the rest does from wherever
the first part may have led. -/
theorem Returns.bind {x : Prog σ α} {f : α → Prog σ β} {s : σ} (first : x.Returns s)
    (rest : ∀ a t, x s = some (a, t) → (f a).Returns t) : (x >>= f).Returns s := by
  obtain ⟨a, t, run⟩ := first
  obtain ⟨b, u, run'⟩ := rest a t run
  exact ⟨b, u, bind_eq_some.mpr ⟨a, t, run, run'⟩⟩

end Prog
end Xv6.Lib
