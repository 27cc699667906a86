import Choreography.Proofs.CastPrograms
import Choreography.Proofs.Fuel

/-!
Computations that end. A computation to a bounded depth ends when the bound makes no difference any
more: from some depth on it has one outcome, and the outcome is a result or a fault. What does not
evaluate parts of the program ends at once; sequences end when their parts do.
-/

namespace Choreography

namespace Eval

variable {α β : Type} {x : Nat → Eval α} {P Q : α → Prop} {R : β → Prop}

/-- From some depth on the computation has one outcome, and it is a fault or a result that satisfies
`Q`. -/
structure Ends (x : Nat → Eval α) (Q : α → Prop) : Prop where
  run (s : Supply) : ∃ depth out, (∀ fuel, depth ≤ fuel → (x fuel).runFrom s = out) ∧
    out.1 ≠ .error .outOfFuel ∧ ∀ a, out.1 = .ok a → Q a

namespace Ends

theorem of_meets {x : Eval α} (h : Meets (· ≠ .outOfFuel) Q x) : Ends (fun _ => x) Q := by
  refine ⟨fun s => ?_⟩
  refine ⟨0, x.runFrom s, fun _ _ => rfl, fun hout => ?_, fun a hout => ?_⟩
  · exact h.stop (Prod.ext hout rfl) rfl
  · exact h.result (Prod.ext hout rfl)

/-- A computation that can only stop with faults of the program ends. -/
theorem of_faults {x : Eval α} (h : Meets (·.isOrdinary = true) Q x) : Ends (fun _ => x) Q := by
  refine of_meets (h.mono (fun stop hstop hout => ?_) fun _ h => h)
  simp [hout, Stop.isOrdinary] at hstop

theorem of_routine {x : Eval α} (h : Routine x) (hresult : ∀ {s a s'}, x.Yields s a s' → Q a) :
    Ends (fun _ => x) Q :=
  of_faults (h.proceeds hresult).toMeets

theorem passes {x : Eval α} (h : Routine x) : Ends (fun _ => x) (fun _ => True) :=
  of_faults h.toMeets

theorem pure {a : α} (h : Q a) : Ends (fun _ => (Pure.pure a : Eval α)) Q :=
  of_meets (.pure h)

theorem fail {f : Fault} : Ends (fun _ => (Eval.fail f : Eval α)) Q :=
  of_meets (.fail (by simp))

theorem freshTag : Ends (fun _ => Eval.freshTag) (fun _ => True) := of_meets .freshTag

theorem orFail {o : Option α} {f : Fault} : Ends (fun _ => Eval.orFail o f) (fun a => o = some a) :=
  of_meets (.orFail fun _ => by simp)

theorem ensure {c : Bool} {f : Fault} : Ends (fun _ => Eval.ensure c f) (fun _ => c = true) :=
  of_meets (.ensure fun _ => by simp)

theorem bind {f : Nat → α → Eval β} (hx : Ends x P) (hf : ∀ a, P a → Ends (fun fuel => f fuel a) R) :
    Ends (fun fuel => x fuel >>= f fuel) R := by
  refine ⟨fun s => ?_⟩
  obtain ⟨depth, ⟨outcome, middle⟩, hrun, hout, hresult⟩ := hx.run s
  cases outcome with
  | error stop =>
    refine ⟨depth, (.error stop, middle), fun fuel hfuel => ?_, ?_, by simp⟩
    · rw [runFrom_bind, hrun fuel hfuel]
    · simpa using hout
  | ok a =>
    obtain ⟨depth', out, hrun', hout', hresult'⟩ := (hf a (hresult a rfl)).run middle
    refine ⟨max depth depth', out, fun fuel hfuel => ?_, hout', hresult'⟩
    rw [runFrom_bind, hrun fuel (by omega)]
    exact hrun' fuel (by omega)

theorem skip {x : Eval α} {f : Nat → α → Eval β} (h : Routine x)
    (hf : ∀ a, Ends (fun fuel => f fuel a) R) : Ends (fun fuel => x >>= f fuel) R :=
  (passes h).bind fun a _ => hf a

theorem imp (h : Ends x P) (himp : ∀ a, P a → Q a) : Ends x Q := by
  refine ⟨fun s => ?_⟩
  obtain ⟨depth, out, hrun, hout, hresult⟩ := h.run s
  exact ⟨depth, out, hrun, hout, fun a ha => himp a (hresult a ha)⟩

/-- Another level of depth makes no difference to whether a computation ends. -/
theorem of_succ (h : Ends (fun fuel => x (fuel + 1)) Q) : Ends x Q := by
  refine ⟨fun s => ?_⟩
  obtain ⟨depth, out, hrun, hout, hresult⟩ := h.run s
  refine ⟨depth + 1, out, fun fuel hfuel => ?_, hout, hresult⟩
  obtain ⟨fuel, rfl⟩ := Nat.exists_eq_add_of_le' (Nat.le_of_add_left_le hfuel)
  exact hrun fuel (by omega)

/-- The results of a computation that ends are those that it gives at some depth. -/
theorem of_results (h : Ends x P) (hresult : ∀ {fuel s a s'}, (x fuel).Yields s a s' → Q a) :
    Ends x Q := by
  refine ⟨fun s => ?_⟩
  obtain ⟨depth, ⟨outcome, middle⟩, hrun, hout, _⟩ := h.run s
  refine ⟨depth, _, hrun, hout, fun a ha => ?_⟩
  cases ha
  exact hresult (hrun depth (Nat.le_refl depth))

/-- Whatever a computation gives within some depth satisfies what its results satisfy, when greater
depths give the same. -/
theorem result (h : Ends x Q) (hmono : ∀ {fuel fuel'}, fuel ≤ fuel' → Extends (x fuel) (x fuel'))
    {fuel : Nat} {s s' : Supply} {a : α} (hrun : (x fuel).Yields s a s') : Q a := by
  obtain ⟨depth, out, hends, _, hresult⟩ := h.run s
  refine hresult a ?_
  rcases (hmono (Nat.le_max_left fuel depth)).run s with hout | heq
  · rw [show (x fuel).runFrom s = (.ok a, s') from hrun] at hout
    cases hout
  · rw [← hends _ (Nat.le_max_right fuel depth), ← heq,
      show (x fuel).runFrom s = (.ok a, s') from hrun]

end Ends

end Eval

end Choreography
