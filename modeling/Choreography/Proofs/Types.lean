import Choreography.Proofs.Run

/-!
Types that programs can write: they have neither quantifiers nor type variables, so that matching
against them is equality.
-/

namespace Choreography

namespace Ty

/-- A type without quantifiers and type variables, as programs can write it. -/
inductive Ground : Ty → Prop
  | null : Ground .null
  | bool : Ground .bool
  | uint256 : Ground .uint256
  | bytes : Ground .bytes
  | address : Ground .address
  | func {dom : List Ty} {rng : Ty} (hdom : ∀ t ∈ dom, Ground t) (hrng : Ground rng) :
    Ground (.func dom rng)
  | array {elem : Ty} {size : Nat} (helem : Ground elem) : Ground (.array elem size)
  | tuple {elems : List Ty} (helems : ∀ t ∈ elems, Ground t) : Ground (.tuple elems)
  | object {fields : List (String × Ty)} (hfields : ∀ f ∈ fields, Ground f.2) :
    Ground (.object fields)

/-- Matching against the type is equality, and solves no variable. -/
def Rigid (expected : Ty) : Prop :=
  ∀ (actual : Ty) (solved solved' : NameMap Ty),
    solve expected actual solved = (true, solved') → actual = expected ∧ solved' = solved

theorem solveList_of_rigid {expected : List Ty} (h : ∀ t ∈ expected, t.Rigid) :
    ∀ {actual : List Ty} {solved solved' : NameMap Ty}, expected.length = actual.length →
      solveList expected actual solved = (true, solved') →
      actual = expected ∧ solved' = solved := by
  induction expected with
  | nil =>
    intro actual solved solved' hlen hsolve
    have hnil : actual = [] := List.length_eq_zero_iff.1 hlen.symm
    simp only [solveList, Prod.mk.injEq, true_and] at hsolve
    exact ⟨hnil, hsolve.symm⟩
  | cons t expected ih =>
    intro actual solved solved' hlen hsolve
    cases actual with
    | nil => simp at hlen
    | cons t' actual =>
      simp only [solveList] at hsolve
      split at hsolve
      · rename_i middle hfirst
        obtain ⟨rfl, rfl⟩ := h t List.mem_cons_self t' solved _ hfirst
        obtain ⟨rfl, rfl⟩ :=
          ih (fun u hu => h u (List.mem_cons_of_mem _ hu)) (by simpa using hlen) hsolve
        exact ⟨rfl, rfl⟩
      · rename_i hfailed
        exact absurd hsolve (hfailed solved')

theorem solveFields_of_rigid {expected : List (String × Ty)} (h : ∀ f ∈ expected, f.2.Rigid) :
    ∀ {actual : List (String × Ty)} {solved solved' : NameMap Ty},
      expected.length = actual.length → solveFields expected actual solved = (true, solved') →
      actual = expected ∧ solved' = solved := by
  induction expected with
  | nil =>
    intro actual solved solved' hlen hsolve
    have hnil : actual = [] := List.length_eq_zero_iff.1 hlen.symm
    simp only [solveFields, Prod.mk.injEq, true_and] at hsolve
    exact ⟨hnil, hsolve.symm⟩
  | cons f expected ih =>
    intro actual solved solved' hlen hsolve
    cases actual with
    | nil => simp at hlen
    | cons f' actual =>
      obtain ⟨name, t⟩ := f
      obtain ⟨name', t'⟩ := f'
      simp only [solveFields] at hsolve
      split at hsolve
      · rename_i hname
        split at hsolve
        · rename_i middle hfirst
          obtain ⟨rfl, rfl⟩ := h (name, t) List.mem_cons_self t' solved _ hfirst
          obtain ⟨rfl, rfl⟩ :=
            ih (fun g hg => h g (List.mem_cons_of_mem _ hg)) (by simpa using hlen) hsolve
          exact ⟨by rw [hname], rfl⟩
        · rename_i hfailed
          exact absurd hsolve (hfailed solved')
      · simp at hsolve

theorem Ground.rigid {t : Ty} (h : t.Ground) : t.Rigid := by
  induction h with
  | null | bool | uint256 | bytes | address =>
    intro actual solved solved' hsolve
    simp only [solve, Prod.mk.injEq, decide_eq_true_eq] at hsolve
    exact ⟨hsolve.1.symm, hsolve.2.symm⟩
  | @func dom rng _ _ ihdom ihrng =>
    intro actual solved solved' hsolve
    simp only [solve] at hsolve
    split at hsolve
    · simp_all
    · split at hsolve
      · split at hsolve
        · rename_i hlen
          split at hsolve
          · rename_i middle hdom
            obtain ⟨rfl, rfl⟩ := solveList_of_rigid ihdom hlen hdom
            obtain ⟨rfl, rfl⟩ := ihrng _ _ _ hsolve
            exact ⟨rfl, rfl⟩
          · rename_i hfailed
            exact absurd hsolve (hfailed solved')
        · simp at hsolve
      · simp at hsolve
  | array _ ih =>
    intro actual solved solved' hsolve
    simp only [solve] at hsolve
    split at hsolve
    · simp_all
    · split at hsolve
      · split at hsolve
        · rename_i hsize
          obtain ⟨rfl, rfl⟩ := ih _ _ _ hsolve
          exact ⟨by rw [hsize], rfl⟩
        · simp at hsolve
      · simp at hsolve
  | tuple _ ih =>
    intro actual solved solved' hsolve
    simp only [solve] at hsolve
    split at hsolve
    · simp_all
    · split at hsolve
      · split at hsolve
        · rename_i hlen
          obtain ⟨rfl, rfl⟩ := solveList_of_rigid ih hlen hsolve
          exact ⟨rfl, rfl⟩
        · simp at hsolve
      · simp at hsolve
  | object _ ih =>
    intro actual solved solved' hsolve
    simp only [solve] at hsolve
    split at hsolve
    · simp_all
    · split at hsolve
      · split at hsolve
        · rename_i hlen
          obtain ⟨rfl, rfl⟩ := solveFields_of_rigid ih hlen hsolve
          exact ⟨rfl, rfl⟩
        · simp at hsolve
      · simp at hsolve

theorem Ground.stripForAll {t : Ty} (h : t.Ground) : t.stripForAll = t := by
  cases h <;> rfl

/-- A function type that programs can write is applied at exactly its own domain. -/
theorem Ground.convert {funType t : Ty} {loc : Loc} {vs : List Value} {operands : List Ir.Arg}
    {s s' : Supply} (hground : funType.Ground)
    (h : (funType.convert loc vs).Yields s (t, operands) s') :
    ∃ ts : List (Ty × Ir.Arg), (∀ t ∈ ts, ∃ v ∈ vs, v.typed? = some t) ∧
      operands = ts.map (·.2) ∧ funType = .func (ts.map (·.1)) t ∧ s' = s := by
  obtain ⟨dom, rng, ts, solved, hstrip, hlen, htyped, hoperands, hsolve, rfl, rfl⟩ :=
    convert_yields h
  rw [hground.stripForAll] at hstrip
  subst hstrip
  have hdom : ∀ t ∈ dom, t.Rigid := by
    cases hground with
    | func hdom _ => exact fun t ht => (hdom t ht).rigid
  obtain ⟨hts, rfl⟩ := solveList_of_rigid hdom (by simpa using hlen) hsolve
  exact ⟨ts, htyped, hoperands, by simp [hts, substAll], rfl⟩

end Ty

end Choreography
