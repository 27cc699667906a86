import Choreography.Proofs.ByteOrder
import Choreography.Proofs.Lookup
import Mathlib.Data.List.Find

/-!
Environments are finite maps in which a name is bound once, whichever way they were made; and to
merge two of them is to join maps that have no name in common.
-/

namespace Choreography

open Eval

namespace Env

variable {α : Type}

/-- The environments that come about from the empty one. -/
inductive Reached : Env α → Prop
  | empty : Reached {}
  | insert {env out : Env α} {name : String} {a : α} (h : Reached env)
    (hinsert : env.insert? name a = some out) : Reached out
  | set {env : Env α} (h : Reached env) (name : String) (a : α) : Reached (env.set name a)
  | difference {env : Env α} (h : Reached env) (other : Env α) : Reached (env.difference other)
  | without {env : Env α} (h : Reached env) (names : List String) : Reached (env.without names)

/-- A finite map: it finds its entries, one for each name, and lists its names in the order of
their bytes. -/
structure IsMap (env : Env α) : Prop where
  distinct : env.Distinct
  size_eq : env.size = env.entries.length ∧ env.size = env.names.length
  find?_iff : ∀ name a, env.find? name = some a ↔ (name, a) ∈ env.entries
  names_perm : env.names.Perm (env.entries.map (·.1))
  names_sorted : env.names.Pairwise fun x y => Text.Earlier (Text.bytes x) (Text.bytes y)

/-- A name is bound as the newest, and the bindings of the others are as before, in their order. -/
structure Binds (env : Env α) (name : String) (a : α) (out : Env α) : Prop where
  newest : out.entries.getLast? = some (name, a)
  others : out.entries.filter (·.1 ≠ name) = env.entries.filter (·.1 ≠ name)
  find?_eq : ∀ name', out.find? name' = if name' = name then some a else env.find? name'

/-- Exactly the bindings of names that are not dropped are left, in their order. -/
structure Drops (env : Env α) (dropped : String → Prop) (out : Env α) : Prop where
  sublist : out.entries.Sublist env.entries
  mem_iff : ∀ b, b ∈ out.entries ↔ b ∈ env.entries ∧ ¬ dropped b.1

/-- No name is bound in both. -/
def Apart (a b : Env α) : Prop := ∀ name, ¬ (a.contains name = true ∧ b.contains name = true)

/-- The bindings of both, those of the first before those of the second. -/
def append (a b : Env α) : Env α := ⟨a.entries ++ b.entries⟩

variable {env out a b c : Env α}

theorem binds_set (env : Env α) (name : String) (a : α) : env.Binds name a (env.set name a) where
  newest := by simp [set, push]
  others := by simp [set, push, without, List.filter_filter]
  find?_eq name' := by
    split
    · next h => rw [h, find?_set_self]
    · next h => exact find?_set_of_ne env a h

theorem drops_difference (env other : Env α) :
    env.Drops (other.contains ·) (env.difference other) where
  sublist := List.filter_sublist
  mem_iff b := by simp [difference]

theorem drops_without (env : Env α) (names : List String) :
    env.Drops (· ∈ names) (env.without names) where
  sublist := List.filter_sublist
  mem_iff b := by simp [without]

/-- A name is inserted where it is not bound. -/
theorem insert?_eq_set (env : Env α) (name : String) (a : α) :
    env.insert? name a = if env.contains name then none else some (env.set name a) := by
  rw [insert?]
  split
  · rfl
  · next hnew =>
    have hother : ∀ b ∈ env.entries, (!([name].contains b.1)) = true := by
      intro b hb
      have hne : b.1 ≠ name := fun heq => hnew (contains_iff_mem.2 (heq ▸ List.mem_map_of_mem hb))
      simpa using hne
    rw [set, without, List.filter_eq_self.2 hother]

theorem Drops.distinct {dropped : String → Prop} (h : env.Drops dropped out)
    (henv : env.Distinct) : out.Distinct :=
  List.Nodup.sublist (h.sublist.map _) henv

theorem Reached.distinct (h : env.Reached) : env.Distinct := by
  induction h with
  | empty => exact distinct_empty
  | insert _ hinsert ih =>
    simp only [insert?, Option.ite_none_left_eq_some, Option.some.injEq] at hinsert
    obtain ⟨hnew, rfl⟩ := hinsert
    exact ih.push (by simpa using hnew)
  | @set env _ name _ ih =>
    exact ((drops_without env [name]).distinct ih).push
      (contains_eq_false.2 (by simp [find?_without]))
  | difference _ other ih => exact (drops_difference _ other).distinct ih
  | without _ names ih => exact (drops_without _ names).distinct ih

theorem pairwise_names (env : Env α) : env.names.Pairwise (· ≤ ·) := by
  have hsorted : env.names.Pairwise fun x y => decide (x ≤ y) = true :=
    List.pairwise_mergeSort (by simpa using fun _ _ _ => String.le_trans)
      (by simpa using String.le_total) (env.entries.map (·.1))
  simpa using hsorted

theorem Distinct.isMap (h : env.Distinct) : env.IsMap where
  distinct := h
  size_eq := ⟨rfl, by simp [names, size]⟩
  find?_iff name a := by
    refine ⟨fun hfind => ?_, fun hmem => h.find?_of_mem hmem⟩
    obtain ⟨before, after, heq, _⟩ := List.lookup_eq_some_iff.1 hfind
    simp [heq]
  names_perm := List.mergeSort_perm _ _
  names_sorted := by
    have hnodup : env.names.Nodup := (List.mergeSort_perm _ _).nodup_iff.2 h
    refine (env.pairwise_names.and hnodup).imp fun hle => ?_
    exact Text.earlier_bytes_iff.2 (Std.lt_of_le_of_ne hle.1 hle.2)

theorem contains_append (name : String) :
    (a.append b).contains name = (a.contains name || b.contains name) := by
  have hfind : (a.append b).find? name = (a.find? name).or (b.find? name) :=
    find?_of_append rfl name
  rw [contains, hfind, Option.isSome_or, contains, contains]

theorem append_apart_iff : (a.append b).Apart c ↔ a.Apart c ∧ b.Apart c := by
  simp only [Apart, contains_append, Bool.or_eq_true]
  grind

theorem apart_append_iff : a.Apart (b.append c) ↔ a.Apart b ∧ a.Apart c := by
  simp only [Apart, contains_append, Bool.or_eq_true]
  grind

theorem Distinct.append (ha : a.Distinct) (hb : b.Distinct) (h : a.Apart b) :
    (a.append b).Distinct := by
  rw [Distinct, Env.append, List.map_append]
  refine List.nodup_append.2 ⟨ha, hb, fun name hname name' hname' heq => ?_⟩
  exact h name ⟨contains_iff_mem.2 hname, contains_iff_mem.2 (heq ▸ hname')⟩

end Env

namespace Bindings

variable {a b c : Bindings} {loc : Loc} {s : Supply}

/-- Names that are bound in turn are added at the end, unless one is bound: the first such name is
the one that is shadowed. -/
theorem bindAll_runFrom (loc : Loc) (s : Supply) :
    ∀ (more : List (String × SecValue)) (env : Bindings), (more.map (·.1)).Nodup →
      (env.bindAll loc more).runFrom s =
        (((more.map (·.1)).find? env.contains).elim (.ok ⟨env.entries ++ more⟩)
          fun name => .error (.fault (.shadowed loc name)), s)
  | [], env, _ => by simp [bindAll]
  | (name, v) :: more, env, h => by
    obtain ⟨hname, hmore⟩ := List.nodup_cons.1 h
    cases hbound : env.contains name with
    | true => simp [bindAll, bind, Env.insert?, hbound, orFail, runFrom_bind]
    | false =>
      -- the names still to come differ from this one, so it does not matter that it is bound now
      have hcontains : ∀ name' ∈ more.map (·.1),
          (env.push name v).contains name' = env.contains name' := by
        intro name' hmem
        have hne : (name' == name) = false := by
          simpa using fun heq : name' = name => hname (heq ▸ hmem)
        simp [Env.contains, Env.push, Env.find?_of_append rfl, List.lookup_cons, hne]
      have hstep : (env.bindAll loc ((name, v) :: more)).runFrom s =
          (bindAll (env.push name v) loc more).runFrom s := by
        simp [bindAll, bind, Env.insert?, hbound, orFail]
      rw [hstep, bindAll_runFrom loc s more _ hmore, List.find?_congr hcontains, List.map_cons,
        List.find?_cons_of_neg (by simp [hbound])]
      simp [Env.push]

theorem merge_runFrom (a : Bindings) (hb : b.Distinct) (loc : Loc) (s : Supply) :
    (a.merge loc b).runFrom s =
      (((b.entries.map (·.1)).find? a.contains).elim (.ok (a.append b))
        fun name => .error (.fault (.shadowed loc name)), s) :=
  bindAll_runFrom loc s b.entries a hb

/-- The computation faults because a name is bound already. -/
def Clashes (x : Eval Bindings) (loc : Loc) (s : Supply) : Prop :=
  ∃ name, x.runFrom s = (.error (.fault (.shadowed loc name)), s)

theorem find?_contains_eq_none :
    (b.entries.map (·.1)).find? a.contains = none ↔ a.Apart b := by
  simp only [List.find?_eq_none, ← Env.contains_iff_mem, Env.Apart]
  grind

theorem merge_of_apart (hb : b.Distinct) (h : a.Apart b) :
    (a.merge loc b).runFrom s = (.ok (a.append b), s) := by
  rw [merge_runFrom a hb, find?_contains_eq_none.2 h]
  rfl

theorem merge_of_shared (hb : b.Distinct) (h : ¬ a.Apart b) (loc : Loc) (s : Supply) :
    ∃ name, (b.entries.map (·.1)).find? a.contains = some name ∧
      (a.merge loc b).runFrom s = (.error (.fault (.shadowed loc name)), s) := by
  obtain ⟨name, hname⟩ := Option.ne_none_iff_exists'.1 (mt find?_contains_eq_none.1 h)
  exact ⟨name, hname, by rw [merge_runFrom a hb, hname]; rfl⟩

theorem merge_clashes (hb : b.Distinct) (h : ¬ a.Apart b) : Clashes (a.merge loc b) loc s :=
  let ⟨name, _, hrun⟩ := merge_of_shared hb h loc s
  ⟨name, hrun⟩

theorem Clashes.bind {x : Eval Bindings} (h : Clashes x loc s) (f : Bindings → Eval Bindings) :
    Clashes (x >>= f) loc s := by
  obtain ⟨name, hname⟩ := h
  exact ⟨name, by simp only [runFrom_bind, hname]⟩

theorem merge_assoc_of_apart (hb : b.Distinct) (hc : c.Distinct) (hab : a.Apart b)
    (hac : a.Apart c) (hbc : b.Apart c) :
    (a.merge loc b >>= (·.merge loc c)).runFrom s = (.ok ((a.append b).append c), s) ∧
      (b.merge loc c >>= a.merge loc).runFrom s = (.ok ((a.append b).append c), s) := by
  simp only [runFrom_bind, merge_of_apart hb hab, merge_of_apart hc hbc]
  refine ⟨merge_of_apart hc (Env.append_apart_iff.2 ⟨hac, hbc⟩), ?_⟩
  rw [merge_of_apart (hb.append hc hbc) (Env.apart_append_iff.2 ⟨hab, hac⟩)]
  simp [Env.append]

theorem merge_left_clashes (hb : b.Distinct) (hc : c.Distinct)
    (h : ¬ (a.Apart b ∧ a.Apart c ∧ b.Apart c)) :
    Clashes (a.merge loc b >>= (·.merge loc c)) loc s := by
  by_cases hab : a.Apart b
  · simp only [Clashes, runFrom_bind, merge_of_apart hb hab]
    exact merge_clashes hc fun hall => h ⟨hab, Env.append_apart_iff.1 hall⟩
  · exact (merge_clashes hb hab).bind _

theorem merge_right_clashes (hb : b.Distinct) (hc : c.Distinct)
    (h : ¬ (a.Apart b ∧ a.Apart c ∧ b.Apart c)) :
    Clashes (b.merge loc c >>= a.merge loc) loc s := by
  by_cases hbc : b.Apart c
  · simp only [Clashes, runFrom_bind, merge_of_apart hc hbc]
    refine merge_clashes (hb.append hc hbc) fun hall => h ?_
    exact ⟨(Env.apart_append_iff.1 hall).1, (Env.apart_append_iff.1 hall).2, hbc⟩
  · exact (merge_clashes hc hbc).bind _

end Bindings

namespace Bindings

/-- The names, each set to null in turn. -/
def nulls (names : List String) : Bindings :=
  .ofList (names.map fun name => (name, .pub (.null .synthetic)))

theorem reached_setAll {env : Bindings} (h : env.Reached) (bindings : List (String × SecValue)) :
    (env.setAll bindings).Reached := by
  induction bindings generalizing env with
  | nil => exact h
  | cons b rest ih => exact ih (h.set b.1 b.2)

theorem reached_nulls (names : List String) : (nulls names).Reached := reached_setAll .empty _

example : ((nulls ["x"]).merge .synthetic (nulls ["y"]) >>=
      (·.merge .synthetic (nulls ["x", "y"]))).runFrom {} =
        (.error (.fault (.shadowed .synthetic "x")), {}) ∧
    ((nulls ["y"]).merge .synthetic (nulls ["x", "y"]) >>=
      (nulls ["x"]).merge .synthetic).runFrom {} =
        (.error (.fault (.shadowed .synthetic "y")), {}) := ⟨rfl, rfl⟩

end Bindings

end Choreography
