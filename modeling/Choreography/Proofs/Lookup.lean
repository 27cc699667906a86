import Choreography.Proofs.Containers

/-!
What lookups find. A binding that is added never hides an older one; setting a name changes what
that name is bound to and nothing else; and dropping names leaves the bindings of all others.
-/

namespace Choreography

open Eval

namespace Env

variable {α : Type} {env out other : Env α} {name name' : String} {a : α} {more : List (String × α)}
  {bindings : List (String × SecValue)}

theorem contains_eq_false : env.contains name = false ↔ env.find? name = none := by
  simp [contains]

theorem contains_iff_mem : env.contains name = true ↔ name ∈ env.entries.map (·.1) := by
  rw [contains, find?, List.lookup_isSome_iff, List.mem_map]
  simp only [beq_iff_eq, @eq_comm _ name]

theorem find?_of_append (h : out.entries = env.entries ++ more) (name : String) :
    out.find? name = (env.find? name).or (more.lookup name) := by
  rw [find?, h, List.lookup_append, find?]

theorem find?_push_self (hnew : env.contains name = false) :
    (env.push name a).find? name = some a := by
  rw [push, find?_of_append rfl, contains_eq_false.1 hnew]
  simp

/-- What is added leaves older bindings as they are. -/
theorem find?_of_older (h : env.entries <+: out.entries) (hfind : env.find? name = some a) :
    out.find? name = some a := by
  obtain ⟨more, hmore⟩ := h
  rw [find?_of_append hmore.symm, hfind, Option.some_or]

theorem lookup_filter (keep : String → Bool) (name : String) (entries : List (String × α)) :
    (entries.filter fun b => keep b.1).lookup name =
      if keep name then entries.lookup name else none := by
  induction entries with
  | nil => simp
  | cons b rest ih =>
    obtain ⟨first, a⟩ := b
    by_cases heq : name = first
    · subst heq
      cases hkeep : keep name <;> simp [hkeep, ih]
    · have hne : (name == first) = false := by simpa using heq
      cases hkeep : keep first <;> simp [List.lookup_cons, hkeep, ih, hne]

theorem find?_without (env : Env α) (names : List String) (name : String) :
    (env.without names).find? name = if name ∈ names then none else env.find? name := by
  rw [find?, without, lookup_filter fun x => !names.contains x]
  by_cases hmem : name ∈ names <;> simp [hmem, find?]

theorem find?_set_self (env : Env α) (name : String) (a : α) :
    (env.set name a).find? name = some a := by
  exact find?_push_self (contains_eq_false.2 (by simp [find?_without]))

theorem find?_set_of_ne (env : Env α) (a : α) (hne : name' ≠ name) :
    (env.set name a).find? name' = env.find? name' := by
  have hbeq : (name' == name) = false := by simpa using hne
  rw [set, push, find?_of_append rfl, find?_without]
  simp [hne, List.lookup_cons, hbeq]

theorem find?_setAll (bindings : List (String × α)) (name : String) : ∀ env : Env α,
    (env.setAll bindings).find? name = (bindings.reverse.lookup name).or (env.find? name) := by
  induction bindings with
  | nil => exact fun _ => rfl
  | cons b rest ih =>
    intro env
    obtain ⟨bound, a⟩ := b
    rw [List.reverse_cons, List.lookup_append, Option.or_assoc]
    refine (ih (env.set bound a)).trans (congrArg _ ?_)
    by_cases hname : name = bound
    · simp [hname, find?_set_self, List.lookup_cons_self]
    · have hbeq : (name == bound) = false := by simpa using hname
      simp [find?_set_of_ne _ _ hname, List.lookup_cons, hbeq]

/-- Of what was added to an environment, nothing else is left when the older names are dropped. -/
theorem difference_entries (h : out.entries = env.entries ++ more)
    (hnew : ∀ b ∈ more, env.find? b.1 = none) : (out.difference env).entries = more := by
  have hold : ∀ b ∈ env.entries, env.contains b.1 = true := fun b hb =>
    contains_iff_mem.2 (List.mem_map_of_mem hb)
  rw [difference, h, List.filter_append, List.filter_eq_nil_iff.2 (by simpa using hold),
    List.filter_eq_self.2 (by simpa [contains_eq_false] using hnew), List.nil_append]

/-- No name is bound twice. -/
def Distinct (env : Env α) : Prop := (env.entries.map (·.1)).Nodup

theorem distinct_empty : ({} : Env α).Distinct := by simp [Distinct]

theorem Distinct.push (h : env.Distinct) (hnew : env.contains name = false) :
    (env.push name a).Distinct := by
  have hother : ∀ b ∈ env.entries, b.1 ≠ name := by
    intro b hb heq
    have hne := List.lookup_eq_none_iff.1 (contains_eq_false.1 hnew) b hb
    simp [heq] at hne
  simp only [Distinct, Env.push, List.map_append, List.map_cons, List.map_nil]
  refine List.nodup_append.2 ⟨h, by simp, ?_⟩
  intro x hx y hy
  obtain ⟨b, hb, rfl⟩ := List.mem_map.1 hx
  obtain rfl := List.mem_singleton.1 hy
  exact hother b hb

theorem Distinct.find?_of_mem (h : env.Distinct) {b : String × α}
    (hb : b ∈ env.entries) : env.find? b.1 = some b.2 := by
  obtain ⟨entries⟩ := env
  unfold Distinct at h
  unfold find?
  induction entries with
  | nil => simp at hb
  | cons first rest ih =>
    obtain ⟨name, a⟩ := first
    simp only [List.map_cons, List.nodup_cons, List.mem_map, not_exists, not_and] at h
    rcases List.mem_cons.1 hb with rfl | hrest
    · simp
    · have hne : (b.1 == name) = false := by simpa using h.1 b hrest
      simpa only [List.lookup_cons, hne] using ih h.2 hrest

end Env

namespace Bindings

variable {s s' : Supply} {loc : Loc} {env overlay out : Bindings}

theorem bind_distinct {name : String} {sv : SecValue} (h : env.Distinct)
    (hrun : (env.bind loc name sv).Yields s out s') : out.Distinct := by
  obtain ⟨hnew, rfl, _⟩ := bind_yields.1 hrun
  exact h.push hnew

theorem bindAll_distinct :
    ∀ {env out : Bindings} {s s' : Supply}, env.Distinct →
      (env.bindAll loc bindings).Yields s out s' → out.Distinct := by
  induction bindings with
  | nil =>
    intro env out s s' h hrun
    simp only [Bindings.bindAll, yields_pure] at hrun
    rw [hrun.1]
    exact h
  | cons b rest ih =>
    intro env out s s' h hrun
    simp only [Bindings.bindAll, yields_bind] at hrun
    obtain ⟨_, _, hbind, hrest⟩ := hrun
    exact ih (bind_distinct h hbind) hrest

/-- Names that are bound in turn were not bound before. -/
theorem bindAll_fresh :
    ∀ {env out : Bindings} {s s' : Supply}, (env.bindAll loc bindings).Yields s out s' →
      ∀ b ∈ bindings, env.find? b.1 = none := by
  induction bindings with
  | nil => simp
  | cons first rest ih =>
    intro env out s s' hrun
    simp only [Bindings.bindAll, yields_bind, bind_yields] at hrun
    obtain ⟨_, _, ⟨hfirst, rfl, rfl⟩, hrun⟩ := hrun
    refine List.forall_mem_cons.2 ⟨Env.contains_eq_false.1 hfirst, fun b hb => ?_⟩
    have hnone := ih hrun b hb
    rw [Env.push, Env.find?_of_append rfl, Option.or_eq_none_iff] at hnone
    exact hnone.1

/-- The formals of a function can still be bound where they are bound to its arguments. -/
theorem formals_fresh {formals : List String} {args : List SecValue}
    (hlength : formals.length = args.length)
    (hrun : (env.bindAll loc (formals.zip args)).Yields s out s') :
    ∀ name ∈ formals, env.find? name = none := by
  intro name hname
  rw [← List.map_fst_zip (Nat.le_of_eq hlength)] at hname
  obtain ⟨b, hb, rfl⟩ := List.mem_map.1 hname
  exact bindAll_fresh hrun b hb

theorem merge_fresh (hrun : (env.merge loc overlay).Yields s out s') :
    ∀ b ∈ overlay.entries, env.find? b.1 = none :=
  bindAll_fresh hrun

theorem bind_extends {name : String} {sv : SecValue}
    (hrun : (env.bind loc name sv).Yields s out s') : env.entries <+: out.entries := by
  obtain ⟨_, rfl, _⟩ := bind_yields.1 hrun
  exact List.prefix_append _ _

theorem bindAll_extends (hrun : (env.bindAll loc bindings).Yields s out s') :
    env.entries <+: out.entries := by
  rw [(bindAll_yields hrun).1]
  exact List.prefix_append _ _

theorem merge_extends (hrun : (env.merge loc overlay).Yields s out s') :
    env.entries <+: out.entries :=
  bindAll_extends hrun

/-- After a merge, a name is bound as before, or else as in what was merged. -/
theorem merge_find? (hrun : (env.merge loc overlay).Yields s out s') (name : String) :
    out.find? name = (env.find? name).or (overlay.find? name) :=
  Env.find?_of_append (merge_yields hrun).1 name

end Bindings

namespace OrderedMap

variable {κ α β : Type} [DecidableEq κ] {m : OrderedMap κ α} {out : OrderedMap κ β} {k : κ} {a : α}
  {f : κ → α → Eval β} {s s' : Supply}

/-- A traversal with computations that leave the supply as it is keeps the keys, and a key has what
the computation makes of what it had. -/
theorem traverse_get? (hf : ∀ k a s b s', (f k a).Yields s b s' → s' = s)
    (h : (m.traverse f).Yields s out s') :
    out.keys = m.keys ∧
      ∀ k a, m.get? k = some a → ∃ b, out.get? k = some b ∧ (f k a).Yields s b s := by
  obtain ⟨entries⟩ := m
  simp only [traverse, yields_bind, yields_pure] at h
  obtain ⟨pairs, _, hpairs, rfl, rfl⟩ := h
  induction entries generalizing pairs with
  | nil =>
    simp only [List.mapM_nil, yields_pure] at hpairs
    obtain ⟨rfl, rfl⟩ := hpairs
    exact ⟨rfl, by simp [get?]⟩
  | cons first rest ih =>
    obtain ⟨k', a'⟩ := first
    simp only [List.mapM_cons, yields_bind, yields_pure] at hpairs
    obtain ⟨_, _, ⟨b, _, hfirst, rfl, rfl⟩, more, _, hrest, rfl, rfl⟩ := hpairs
    obtain rfl := hf _ _ _ _ _ hfirst
    obtain ⟨hkeys, hget⟩ := ih more hrest
    refine ⟨by simpa [keys] using hkeys, fun k a hk => ?_⟩
    by_cases heq : k' = k
    · subst heq
      obtain rfl : a' = a := by simpa [get?] using hk
      exact ⟨b, by simp [get?], hfirst⟩
    · obtain ⟨b', hb', hrun⟩ := hget k a (by simpa [get?, heq] using hk)
      exact ⟨b', by simpa [get?, heq] using hb', hrun⟩

end OrderedMap

end Choreography
