import Choreography.Proofs.Regime
import Mathlib.Data.List.Basic
import Mathlib.Tactic.ByContra

/-!
Formed values and environments: how they come about, and the operands that mention them. The
operand of a formed value is formed at the level of the value, and has the value's type.
-/

namespace Choreography

variable {R : Regime} {X Y : List Known} {level level' : Level}

abbrev SecValue.Formed (R : Regime) (X : List Known) (sv : SecValue) : Prop :=
  sv.value.Formed R X sv.level

/-- Every binding but that of `declassify` is formed. -/
def Bindings.Formed (R : Regime) (X : List Known) (env : Bindings) : Prop :=
  ∀ b ∈ env.entries, ¬ Reserved b → b.2.Formed R X

namespace SecValue

variable {sv : SecValue}

theorem Formed.mono (h : sv.Formed R X) (hsub : X ⊆ Y) : sv.Formed R Y :=
  Value.Formed.mono h hsub .refl

theorem Formed.raise (h : sv.Formed R X) (hlevel : R.Allows sv.level level) :
    sv.value.Formed R X level :=
  Value.Formed.raise h hlevel

theorem Formed.taint (h : sv.Formed R X) : SecValue.Formed R X (sv.taint level) :=
  h.raise .meet_right

end SecValue

namespace Bindings

variable {env env' : Bindings} {name : String} {sv : SecValue}

variable (h : env.Formed R X)
include h

theorem Formed.mono (hsub : X ⊆ Y) : env.Formed R Y :=
  fun b hb hreserved => (h b hb hreserved).mono hsub

omit h in
theorem formed_empty : Bindings.Formed R X {} := by
  intro b hb
  simp at hb

theorem Formed.of_subset (hsub : env'.entries ⊆ env.entries) : env'.Formed R X :=
  fun b hb => h b (hsub hb)

theorem Formed.of_append {bindings : List (String × SecValue)}
    (hall : ∀ b ∈ bindings, ¬ Reserved b → b.2.Formed R X)
    (hentries : env'.entries = env.entries ++ bindings) : env'.Formed R X := by
  intro b hb
  rw [hentries, List.mem_append] at hb
  exact hb.elim (h b) (hall b)

theorem Formed.push (hsv : sv.Formed R X) : Bindings.Formed R X (env.push name sv) := by
  refine h.of_append ?_ rfl
  intro b hb _
  obtain rfl := List.mem_singleton.1 hb
  exact hsv

theorem Formed.without (names : List String) : Bindings.Formed R X (env.without names) :=
  h.of_subset (List.filter_subset_self _)

theorem Formed.difference (other : Bindings) : Bindings.Formed R X (env.difference other) :=
  h.of_subset (List.filter_subset_self _)

theorem Formed.set (hsv : sv.Formed R X) : Bindings.Formed R X (env.set name sv) :=
  (h.without [name]).push hsv

theorem Formed.merge {overlay out : Bindings} {loc : Loc} {s s' : Supply}
    (hover : overlay.Formed R X) (hrun : (env.merge loc overlay).Yields s out s') :
    out.Formed R X :=
  h.of_append hover (merge_yields hrun).1

omit h in
theorem mem_of_find? (h : env.find? name = some sv) : (name, sv) ∈ env.entries := by
  obtain ⟨before, after, hentries, _⟩ := List.lookup_eq_some_iff.1 h
  simp [hentries]

/-- What a name refers to is formed, unless the name is `declassify` in a guarded regime. -/
theorem Formed.find? (hnames : R.Admits [name]) (hfind : env.find? name = some sv) :
    sv.Formed R X := by
  by_cases hreserved : Reserved (name, sv)
  · have hguarded : R.guarded = false := by
      by_contra hnot
      have hother := hnames (by simpa using hnot)
      exact hother (by simp [hreserved.1.symm])
    have hvalue : sv.value = .prim .synthetic .declassify := hreserved.2
    rw [SecValue.Formed, hvalue]
    exact .prim hguarded
  · exact h _ (mem_of_find? hfind) hreserved

theorem Formed.identify {loc : Loc} {s s' : Supply} {out : SecValue} (hnames : R.Admits [name])
    (hrun : (env.identify loc name).Yields s out s') : out.Formed R X := by
  obtain ⟨sv, hfind, _, rfl | ⟨tag, tag', p, hvalue, rfl⟩⟩ := identify_yields hrun
  · exact h.find? hnames hfind
  · have hsv := h.find? hnames hfind
    rw [SecValue.Formed, hvalue] at hsv
    cases hsv with
    | participant hp => exact .participant hp

end Bindings

namespace Value

/-! ### Operands -/

theorem mem_typedList? {vs : List Value} :
    ∀ {ts : List (Ty × Ir.Arg)}, typedList? vs = some ts →
      ∀ t ∈ ts, ∃ v ∈ vs, v.typed? = some t := by
  induction vs with
  | nil =>
    intro ts h
    simp only [typedList?, Option.some.injEq] at h
    simp [← h]
  | cons v vs ih =>
    intro ts h
    simp only [typedList?, Option.bind_eq_bind, Option.bind_eq_some_iff, Option.pure_def,
      Option.some.injEq] at h
    obtain ⟨t, ht, rest, hrest, rfl⟩ := h
    exact mem_typed_cons ht (ih hrest)

theorem mem_typedFields? {fields : List (String × Labelled Value)} :
    ∀ {ts : List (String × Ty × Ir.Arg)}, typedFields? fields = some ts →
      ∀ t ∈ ts, ∃ b ∈ fields, b.2.value.typed? = some t.2 := by
  induction fields with
  | nil =>
    intro ts h
    simp only [typedFields?, Option.some.injEq] at h
    simp [← h]
  | cons b fields ih =>
    intro ts h
    obtain ⟨name, l, v⟩ := b
    simp only [typedFields?, Option.bind_eq_bind, Option.bind_eq_some_iff, Option.pure_def,
      Option.some.injEq] at h
    obtain ⟨t, ht, rest, hrest, rfl⟩ := h
    intro t' ht'
    rcases List.mem_cons.1 ht' with rfl | hmem
    · exact ⟨_, List.mem_cons_self, ht⟩
    · obtain ⟨b, hb, htyped⟩ := ih hrest t' hmem
      exact ⟨b, List.mem_cons_of_mem _ hb, htyped⟩

/-- The operand of a formed value may be mentioned at the value's level, and its type is the one
that the value has. -/
theorem Formed.typed? {v : Value} (h : v.Formed R X level) :
    ∀ {t : Ty} {a : Ir.Arg}, v.typed? = some (t, a) → a.Formed R X level ∧ a.type = t := by
  induction h with
  | null | bool | int | bytes =>
    intro t a ha
    simp only [Value.typed?, Option.some.injEq, Prod.mk.injEq] at ha
    obtain ⟨rfl, rfl⟩ := ha
    exact ⟨.const, rfl⟩
  | var h =>
    intro t a ha
    simp only [Value.typed?, Option.some.injEq, Prod.mk.injEq] at ha
    obtain ⟨rfl, rfl⟩ := ha
    exact ⟨.var h, rfl⟩
  | @tuple l _ _ _ ih =>
    intro t a ha
    simp only [Value.typed?, Option.map_eq_some_iff, Prod.mk.injEq] at ha
    obtain ⟨ts, hts, rfl, rfl⟩ := ha
    have hall : ∀ p ∈ ts, p.2.Formed R X l ∧ p.2.type = p.1 := by
      intro p hp
      obtain ⟨v, hv, htyped⟩ := mem_typedList? hts p hp
      exact ih v hv htyped
    refine ⟨.tuple ?_, ?_⟩
    · intro a ha
      obtain ⟨p, hp, rfl⟩ := List.mem_map.1 ha
      exact (hall p hp).1
    · simp only [Ir.Arg.type, Ir.Arg.types_eq_map, List.map_map]
      congr 1
      exact List.map_congr_left fun p hp => (hall p hp).2
  | @object _ _ fields _ _ ih =>
    intro t a ha
    obtain ⟨entries⟩ := fields
    simp only [Value.typed?, Option.map_eq_some_iff, Prod.mk.injEq] at ha
    obtain ⟨fs, hfs, rfl, rfl⟩ := ha
    have hall : ∀ f ∈ Ty.sortFields fs, f.2.2.Formed R X .secret ∧ f.2.2.type = f.2.1 := by
      intro f hf
      obtain ⟨b, hb, htyped⟩ := mem_typedFields? hfs f (List.mem_mergeSort.1 hf)
      obtain ⟨hformed, htype⟩ := ih b hb htyped
      exact ⟨hformed.raise .to_secret, htype⟩
    refine ⟨.object ?_, ?_⟩
    · intro g hg
      obtain ⟨f, hf, rfl⟩ := List.mem_map.1 hg
      exact (hall f hf).1
    · simp only [Ir.Arg.type, Ir.Arg.fieldTypes_eq_map, List.map_map]
      congr 1
      refine List.map_congr_left fun f hf => ?_
      simp [(hall f hf).2]
  | participant h =>
    intro t a ha
    simp only [Value.typed?, Option.map_eq_some_iff, Prod.mk.injEq] at ha
    obtain ⟨v, hv, rfl, rfl⟩ := ha
    exact ⟨.var ((h v hv).1.mono (List.Subset.refl X) .of_pub), (h v hv).2⟩
  | @prim _ _ p h =>
    intro t a ha
    cases p with
    | interact who method type =>
      obtain ⟨hallows, hoffers, _⟩ := h
      simp only [Value.typed?, Prim.typed?] at ha
      split at ha
      · cases ha
      · cases ha
      · rename_i hdata _
        simp only [Option.some.injEq, Prod.mk.injEq] at ha
        obtain ⟨rfl, rfl⟩ := ha
        exact ⟨.interact hallows hoffers hdata, rfl⟩
    | _ => simp [Value.typed?, Prim.typed?] at ha
  | type | closure | app | appForm | only | round | onlyDone =>
    intro t a ha
    simp [Value.typed?, Prim.typed?] at ha

end Value

end Choreography
