import Choreography.Proofs.Run

/-!
Environments and finite maps by their entries: where the entries of a map come from, and what a
lookup finds after an insertion.
-/

namespace Choreography

namespace Env

variable {α : Type} {env : Env α} {b : String × α}

theorem mem_set {name : String} {a : α} (h : b ∈ (env.set name a).entries) :
    b ∈ env.entries ∨ b = (name, a) := by
  rcases List.mem_append.1 h with hold | hnew
  · exact .inl (List.mem_filter.1 hold).1
  · exact .inr (List.mem_singleton.1 hnew)

theorem mem_setAll {bindings : List (String × α)} :
    ∀ {env : Env α}, b ∈ (env.setAll bindings).entries → b ∈ env.entries ∨ b ∈ bindings := by
  induction bindings with
  | nil =>
    intro env h
    exact .inl h
  | cons first rest ih =>
    intro env h
    rcases ih h with hset | hrest
    · rcases mem_set hset with hold | rfl
      · exact .inl hold
      · exact .inr List.mem_cons_self
    · exact .inr (List.mem_cons_of_mem _ hrest)

theorem mem_ofList {bindings : List (String × α)} (h : b ∈ (ofList bindings).entries) :
    b ∈ bindings := by
  rcases mem_setAll h with hempty | hmem
  · simp [empty] at hempty
  · exact hmem

end Env

namespace OrderedMap

variable {κ α β : Type} {m : OrderedMap κ α} {k : κ} {a : α} {e : κ × α}

theorem mem_of_get? [DecidableEq κ] (h : m.get? k = some a) : (k, a) ∈ m.entries := by
  obtain ⟨e, he, rfl⟩ := Option.map_eq_some_iff.1 h
  have hkey : e.1 = k := by simpa using List.find?_some he
  rw [← hkey]
  exact List.mem_of_find?_eq_some he

theorem getD_of_forall [DecidableEq κ] {P : α → Prop} {d : α} (h : ∀ e ∈ m.entries, P e.2) (hd : P d) :
    P ((m.get? k).getD d) := by
  cases hget : m.get? k with
  | none => exact hd
  | some => exact h _ (mem_of_get? hget)

section Order

variable [DecidableEq κ] [LT κ] [DecidableLT κ]

theorem mem_place {entries : List (κ × α)} (h : e ∈ place k a entries) :
    e = (k, a) ∨ e ∈ entries := by
  induction entries with
  | nil => exact .inl (List.mem_singleton.1 h)
  | cons first rest ih =>
    simp only [place] at h
    split at h
    · rcases List.mem_cons.1 h with rfl | hrest
      · exact .inl rfl
      · exact .inr (List.mem_cons_of_mem _ hrest)
    · split at h
      · exact List.mem_cons.1 h
      · rcases List.mem_cons.1 h with rfl | hrest
        · exact .inr List.mem_cons_self
        · exact (ih hrest).imp_right (List.mem_cons_of_mem _)

theorem mem_insert (h : e ∈ (m.insert k a).entries) : e = (k, a) ∨ e ∈ m.entries := mem_place h

theorem mem_insertNew (h : e ∈ (m.insertNew k a).entries) : e = (k, a) ∨ e ∈ m.entries := by
  unfold insertNew at h
  split at h
  · exact .inr h
  · exact mem_insert h

theorem forall_mem_insert {P : κ × α → Prop} (ha : P (k, a)) (h : ∀ e ∈ m.entries, P e) :
    ∀ e ∈ (m.insert k a).entries, P e :=
  fun e he => (mem_insert he).elim (fun heq => heq ▸ ha) (h e)

theorem forall_mem_insertNew {P : κ × α → Prop} (ha : P (k, a)) (h : ∀ e ∈ m.entries, P e) :
    ∀ e ∈ (m.insertNew k a).entries, P e :=
  fun e he => (mem_insertNew he).elim (fun heq => heq ▸ ha) (h e)

theorem find?_place_self (entries : List (κ × α)) :
    (place k a entries).find? (·.1 = k) = some (k, a) := by
  induction entries with
  | nil => simp [place]
  | cons first rest ih =>
    obtain ⟨k', a'⟩ := first
    simp only [place]
    split
    · simp
    · split
      · simp
      · rename_i hne _
        simpa [Ne.symm hne] using ih

theorem find?_place_of_ne {k' : κ} (hne : k' ≠ k) (entries : List (κ × α)) :
    (place k a entries).find? (·.1 = k') = entries.find? (·.1 = k') := by
  induction entries with
  | nil => simp [place, hne.symm]
  | cons first rest ih =>
    obtain ⟨other, a'⟩ := first
    simp only [place]
    split
    · rename_i heq
      subst heq
      simp [hne.symm]
    · split
      · simp [hne.symm]
      · simp only [List.find?_cons, ih]

theorem get?_insert_self (m : OrderedMap κ α) (k : κ) (a : α) : (m.insert k a).get? k = some a := by
  simp [get?, insert, find?_place_self]

theorem get?_insert_of_ne {k' : κ} (hne : k' ≠ k) (m : OrderedMap κ α) (a : α) :
    (m.insert k a).get? k' = m.get? k' := by
  simp [get?, insert, find?_place_of_ne hne]

/-- The first binding of a key stays. -/
theorem get?_insertNew_of_some {k' : κ} {b : α} (h : m.get? k' = some b) :
    (m.insertNew k a).get? k' = some b := by
  unfold insertNew
  split
  · exact h
  · rename_i hnone
    have hne : k' ≠ k := by
      rintro rfl
      simp [h] at hnone
    rw [get?_insert_of_ne hne, h]

theorem ne_of_get?_insertNew_eq_none {k' : κ} (h : (m.insertNew k a).get? k' = none) :
    k' ≠ k ∧ m.get? k' = none := by
  constructor
  · rintro rfl
    unfold insertNew at h
    split at h
    · simp_all
    · simp [get?_insert_self] at h
  · cases hold : m.get? k' with
    | none => rfl
    | some b => simp [get?_insertNew_of_some hold] at h

theorem get?_foldl_insertNew_of_some {b : α} {pairs : List (κ × α)} :
    ∀ {m : OrderedMap κ α}, m.get? k = some b →
      (pairs.foldl (fun m (k, a) => m.insertNew k a) m).get? k = some b := by
  induction pairs with
  | nil =>
    intro m h
    exact h
  | cons first rest ih =>
    intro m h
    exact ih (get?_insertNew_of_some h)

theorem get?_foldl_insertNew_of_mem {pairs : List (κ × α)} (hdistinct : (pairs.map (·.1)).Nodup)
    (hmem : (k, a) ∈ pairs) : ∀ {m : OrderedMap κ α}, m.get? k = none →
      (pairs.foldl (fun m (k, a) => m.insertNew k a) m).get? k = some a := by
  induction pairs with
  | nil => simp at hmem
  | cons first rest ih =>
    intro m hnone
    obtain ⟨k', a'⟩ := first
    simp only [List.map_cons, List.nodup_cons, List.mem_map, not_exists, not_and] at hdistinct
    rw [List.foldl_cons]
    rcases List.mem_cons.1 hmem with hfirst | hrest
    · obtain ⟨rfl, rfl⟩ := Prod.mk.inj hfirst
      refine get?_foldl_insertNew_of_some ?_
      simp only [insertNew, hnone, get?_insert_self]
    · have hne : k ≠ k' := hdistinct.1 _ hrest
      refine ih hdistinct.2 hrest ?_
      change (m.insertNew k' a').get? k = none
      unfold insertNew
      split
      · exact hnone
      · rw [get?_insert_of_ne hne, hnone]

theorem mem_foldl_insertNew {γ : Type} (key : γ → κ) (value : γ → α) {xs : List γ} :
    ∀ {m : OrderedMap κ α}, e ∈ (xs.foldl (fun m x => m.insertNew (key x) (value x)) m).entries →
      e ∈ m.entries ∨ ∃ x ∈ xs, e = (key x, value x) := by
  induction xs with
  | nil =>
    intro m h
    exact .inl h
  | cons x xs ih =>
    intro m h
    rcases ih h with hnew | ⟨y, hy, rfl⟩
    · rcases mem_insertNew hnew with rfl | hold
      · exact .inr ⟨x, List.mem_cons_self, rfl⟩
      · exact .inl hold
    · exact .inr ⟨y, List.mem_cons_of_mem _ hy, rfl⟩

end Order

/-- Traversing a map with computations that leave the supply as it is. -/
theorem traverse_yields {f : κ → α → Eval β} {m : OrderedMap κ α} {out : OrderedMap κ β}
    {s s' : Supply} (hf : ∀ k a s b s', (f k a).Yields s b s' → s' = s)
    (h : (m.traverse f).Yields s out s') :
    (∀ e ∈ out.entries, ∃ a, (e.1, a) ∈ m.entries ∧ (f e.1 a).Yields s e.2 s) ∧ s' = s := by
  obtain ⟨entries⟩ := m
  simp only [traverse, Eval.yields_bind, Eval.yields_pure] at h
  obtain ⟨pairs, _, hpairs, rfl, rfl⟩ := h
  induction entries generalizing pairs with
  | nil =>
    simp only [List.mapM_nil, Eval.yields_pure] at hpairs
    obtain ⟨rfl, rfl⟩ := hpairs
    simp
  | cons first rest ih =>
    obtain ⟨k, a⟩ := first
    simp only [List.mapM_cons, Eval.yields_bind, Eval.yields_pure] at hpairs
    obtain ⟨_, _, ⟨b, _, hfirst, rfl, rfl⟩, more, _, hrest, rfl, rfl⟩ := hpairs
    obtain rfl := hf _ _ _ _ _ hfirst
    obtain ⟨hall, rfl⟩ := ih more hrest
    refine ⟨List.forall_mem_cons.2 ⟨⟨a, List.mem_cons_self, hfirst⟩, fun e he => ?_⟩, rfl⟩
    obtain ⟨a', hmem, hrun⟩ := hall e he
    exact ⟨a', List.mem_cons_of_mem _ hmem, hrun⟩

end OrderedMap

end Choreography
