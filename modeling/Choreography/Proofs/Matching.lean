import Choreography.Proofs.Containers
import Choreography.Proofs.TypeTrees
import Mathlib.Data.List.Nodup

/-!
Application of functions at types. Matching the types of arguments against a domain finds the types
that its variables stand for, whenever there are any: a successful match is a substitution, and
every substitution that makes the domain equal to the types of the arguments contains what the match
has found. So functions are applied exactly where such a substitution exists, and the range is read
with its types put in at once, although they are put in one after the other.
-/

namespace Choreography

open Eval

theorem OrderedMap.get?_eq_lookup {α : Type} (m : NameMap α) (name : String) :
    m.get? name = m.entries.lookup name := by
  obtain ⟨entries⟩ := m
  simp only [OrderedMap.get?]
  induction entries with
  | nil => rfl
  | cons first rest ih =>
    by_cases heq : first.1 = name
    · subst heq
      rw [List.lookup_cons, BEq.rfl]
      simp
    · have hne : (name == first.1) = false := by simpa using Ne.symm heq
      rw [List.find?_cons_of_neg (by simpa using heq), List.lookup_cons, hne, ih]

/-- An entry for a new key leaves the keys distinct. -/
theorem OrderedMap.nodup_place {α : Type} {name : String} {a : α} {entries : List (String × α)}
    (h : (entries.map (·.1)).Nodup) (hnew : name ∉ entries.map (·.1)) :
    ((OrderedMap.place name a entries).map (·.1)).Nodup := by
  induction entries with
  | nil => simp [OrderedMap.place]
  | cons first rest ih =>
    obtain ⟨other, b⟩ := first
    simp only [List.map_cons, List.mem_cons, not_or] at hnew
    rw [List.map_cons, List.nodup_cons] at h
    simp only [OrderedMap.place, if_neg hnew.1]
    split
    · rw [List.map_cons, List.nodup_cons]
      exact ⟨by simpa using hnew, by rwa [List.map_cons, List.nodup_cons]⟩
    · rw [List.map_cons, List.nodup_cons]
      refine ⟨fun hmem => ?_, ih h.2 hnew.2⟩
      obtain ⟨e, he, hkey⟩ := List.mem_map.1 hmem
      rcases OrderedMap.mem_place he with rfl | hold
      · exact hnew.1 hkey
      · exact h.1 (List.mem_map.2 ⟨e, hold, hkey⟩)

namespace Ty

/-! ### Types that can be solutions -/

/-- A type without variables, whose fields are in order. -/
structure Solid (t : Ty) : Prop where
  closed : t.vars = []
  ordered : t.Ordered

theorem varsList_eq_flatMap (ts : List Ty) : varsList ts = ts.flatMap vars := by
  induction ts with
  | nil => rfl
  | cons t ts ih => rw [varsList, ih, List.flatMap_cons]

theorem varsFields_eq_flatMap (fields : List (String × Ty)) :
    varsFields fields = fields.flatMap (·.2.vars) := by
  induction fields with
  | nil => rfl
  | cons f fields ih => rw [varsFields, ih, List.flatMap_cons]

namespace Solid

theorem func {dom : List Ty} {rng : Ty} (h : (Ty.func dom rng).Solid) :
    (∀ t ∈ dom, t.Solid) ∧ rng.Solid := by
  obtain ⟨hclosed, hordered⟩ := h
  rw [vars, varsList_eq_flatMap, List.append_eq_nil_iff, List.flatMap_eq_nil_iff] at hclosed
  cases hordered with
  | func hdom hrng => exact ⟨fun t ht => ⟨hclosed.1 t ht, hdom t ht⟩, hclosed.2, hrng⟩

theorem array {elem : Ty} {size : Nat} (h : (Ty.array elem size).Solid) : elem.Solid := by
  obtain ⟨hclosed, hordered⟩ := h
  cases hordered with
  | array helem => exact ⟨hclosed, helem⟩

theorem tuple {elems : List Ty} (h : (Ty.tuple elems).Solid) : ∀ t ∈ elems, t.Solid := by
  obtain ⟨hclosed, hordered⟩ := h
  rw [vars, varsList_eq_flatMap, List.flatMap_eq_nil_iff] at hclosed
  cases hordered with
  | tuple helems => exact fun t ht => ⟨hclosed t ht, helems t ht⟩

theorem object {fields : List (String × Ty)} (h : (Ty.object fields).Solid) :
    ∀ f ∈ fields, f.2.Solid := by
  obtain ⟨hclosed, hordered⟩ := h
  rw [vars, varsFields_eq_flatMap, List.flatMap_eq_nil_iff] at hclosed
  cases hordered with
  | object _ hfields => exact fun f hf => ⟨hclosed f hf, hfields f hf⟩

end Solid

/-! ### Solutions -/

/-- Solutions before and after some variables have been met: the solutions from before are kept, and
the new ones are solid types for these variables. -/
structure Grown (solved solved' : NameMap Ty) (met : List String) : Prop where
  keeps {x : String} {t : Ty} : solved.get? x = some t → solved'.get? x = some t
  covers {x : String} : x ∈ met → ∃ t, solved'.get? x = some t
  only {x : String} {t : Ty} : solved'.get? x = some t → solved.get? x = some t ∨ x ∈ met ∧ t.Solid
  nodup : (solved.entries.map (·.1)).Nodup → (solved'.entries.map (·.1)).Nodup

namespace Grown

variable {solved middle solved' : NameMap Ty} {met more : List String}

theorem refl : Grown solved solved [] :=
  ⟨fun h => h, fun h => absurd h List.not_mem_nil, .inl, fun h => h⟩

theorem trans (h : Grown solved middle met) (h' : Grown middle solved' more) :
    Grown solved solved' (met ++ more) where
  keeps ht := h'.keeps (h.keeps ht)
  covers hx := by
    rcases List.mem_append.1 hx with hmet | hmore
    · obtain ⟨t, ht⟩ := h.covers hmet
      exact ⟨t, h'.keeps ht⟩
    · exact h'.covers hmore
  only ht := by
    rcases h'.only ht with hmiddle | ⟨hx, hsolid⟩
    · exact (h.only hmiddle).imp_right fun ⟨hx, hsolid⟩ => ⟨List.mem_append_left _ hx, hsolid⟩
    · exact .inr ⟨List.mem_append_right _ hx, hsolid⟩
  nodup hdistinct := h'.nodup (h.nodup hdistinct)

/-- What has been matched stays matched. -/
theorem instantiate_eq {t : Ty} (hmet : ∀ x ∈ t.vars, ∃ u, middle.get? x = some u)
    (h : Grown middle solved' more) : instantiate solved'.get? t = instantiate middle.get? t := by
  refine instantiate_congr t fun x hx => ?_
  obtain ⟨u, hu⟩ := hmet x hx
  rw [hu, h.keeps hu]

theorem insert {name : String} {t : Ty} (hnew : solved.get? name = none) (ht : t.Solid) :
    Grown solved (solved.insert name t) [name] where
  keeps {x u} hu := by
    have hne : x ≠ name := by
      rintro rfl
      simp [hnew] at hu
    rw [OrderedMap.get?_insert_of_ne hne, hu]
  covers hx := by
    rw [List.mem_singleton.1 hx]
    exact ⟨t, OrderedMap.get?_insert_self ..⟩
  only {x u} hu := by
    by_cases hx : x = name
    · subst hx
      rw [OrderedMap.get?_insert_self] at hu
      cases hu
      exact .inr ⟨List.mem_singleton_self x, ht⟩
    · exact .inl (by rwa [OrderedMap.get?_insert_of_ne hx] at hu)
  nodup hdistinct := by
    refine OrderedMap.nodup_place hdistinct fun hmem => ?_
    obtain ⟨e, he, hkey⟩ := List.mem_map.1 hmem
    have hnone := List.find?_eq_none.1 (Option.map_eq_none_iff.1 hnew) e he
    simp [hkey] at hnone

end Grown

/-! ### A match is a substitution -/

/-- A type that matches as it is has no variables to solve. -/
theorem grown_of_same {t : Ty} {solved : NameMap Ty} (h : t.Solid) :
    Grown solved solved t.vars ∧ instantiate solved.get? t = t := by
  rw [h.closed]
  exact ⟨.refl, instantiate_of_closed h.closed _⟩

mutual

theorem solve_sound : ∀ (expected : Ty) {actual : Ty} {solved solved' : NameMap Ty}, actual.Solid →
    solve expected actual solved = (true, solved') →
    Grown solved solved' expected.vars ∧ instantiate solved'.get? expected = actual
  | .var name, actual, solved, solved', hactual, h => by
    rw [solve] at h
    split at h
    · rename_i t hname
      obtain ⟨heq, rfl⟩ := Prod.mk.inj h
      obtain rfl : t = actual := by simpa using heq
      refine ⟨⟨fun h => h, fun hx => ?_, .inl, fun h => h⟩, by simp [instantiate, hname]⟩
      rw [List.mem_singleton.1 hx]
      exact ⟨t, hname⟩
    · rename_i hname
      obtain ⟨_, rfl⟩ := Prod.mk.inj h
      exact ⟨.insert hname hactual, by simp [instantiate, OrderedMap.get?_insert_self]⟩
  | .array elem size, actual, solved, solved', hactual, h => by
    simp only [solve] at h
    split at h
    · rename_i hsame
      subst hsame
      obtain ⟨_, rfl⟩ := Prod.mk.inj h
      exact grown_of_same hactual
    · split at h
      · split at h
        · rename_i hsize
          obtain ⟨hgrown, heq⟩ := solve_sound elem hactual.array h
          exact ⟨hgrown, by rw [instantiate, heq, hsize]⟩
        · cases h
      · cases h
  | .tuple elems, actual, solved, solved', hactual, h => by
    simp only [solve] at h
    split at h
    · rename_i hsame
      subst hsame
      obtain ⟨_, rfl⟩ := Prod.mk.inj h
      exact grown_of_same hactual
    · split at h
      · split at h
        · rename_i hlen
          obtain ⟨hgrown, heq⟩ := solveList_sound elems hlen hactual.tuple h
          exact ⟨hgrown, by rw [instantiate, heq]⟩
        · cases h
      · cases h
  | .object fields, actual, solved, solved', hactual, h => by
    simp only [solve] at h
    split at h
    · rename_i hsame
      subst hsame
      obtain ⟨_, rfl⟩ := Prod.mk.inj h
      exact grown_of_same hactual
    · split at h
      · split at h
        · rename_i hlen
          obtain ⟨hgrown, heq⟩ := solveFields_sound fields hlen hactual.object h
          exact ⟨hgrown, by rw [instantiate, heq]⟩
        · cases h
      · cases h
  | .func dom rng, actual, solved, solved', hactual, h => by
    simp only [solve] at h
    split at h
    · rename_i hsame
      subst hsame
      obtain ⟨_, rfl⟩ := Prod.mk.inj h
      exact grown_of_same hactual
    · split at h
      · split at h
        · rename_i hlen
          split at h
          · rename_i middle hdom
            obtain ⟨hgrown, heq⟩ := solveList_sound dom hlen hactual.func.1 hdom
            obtain ⟨hgrown', heq'⟩ := solve_sound rng hactual.func.2 h
            refine ⟨hgrown.trans hgrown', ?_⟩
            have hkept : instantiateList solved'.get? dom = instantiateList middle.get? dom := by
              rw [instantiateList_eq_map, instantiateList_eq_map]
              refine List.map_congr_left fun t ht => hgrown'.instantiate_eq fun x hx => ?_
              refine hgrown.covers ?_
              rw [varsList_eq_flatMap]
              exact List.mem_flatMap.2 ⟨t, ht, hx⟩
            rw [instantiate, hkept, heq, heq']
          · rename_i hfailed
            exact absurd h (hfailed solved')
        · cases h
      · cases h
  | .null, actual, solved, solved', hactual, h | .bool, actual, solved, solved', hactual, h
  | .uint256, actual, solved, solved', hactual, h | .bytes, actual, solved, solved', hactual, h
  | .address, actual, solved, solved', hactual, h
  | .forAll _ _, actual, solved, solved', hactual, h => by
    rw [solve] at h
    obtain ⟨heq, rfl⟩ := Prod.mk.inj h
    simp only [decide_eq_true_eq] at heq
    subst heq
    exact grown_of_same hactual

theorem solveList_sound : ∀ (expected : List Ty) {actual : List Ty} {solved solved' : NameMap Ty},
    expected.length = actual.length → (∀ t ∈ actual, t.Solid) →
    solveList expected actual solved = (true, solved') →
    Grown solved solved' (varsList expected) ∧ instantiateList solved'.get? expected = actual
  | [], actual, solved, solved', hlen, _, h => by
    obtain rfl : actual = [] := List.length_eq_zero_iff.1 hlen.symm
    rw [solveList] at h
    · obtain ⟨_, rfl⟩ := Prod.mk.inj h
      exact ⟨.refl, rfl⟩
    · simp
  | t :: ts, actual, solved, solved', hlen, hactual, h => by
    cases actual with
    | nil => simp at hlen
    | cons u us =>
      obtain ⟨hu, hus⟩ := List.forall_mem_cons.1 hactual
      rw [solveList] at h
      split at h
      · rename_i middle hfirst
        obtain ⟨hgrown, heq⟩ := solve_sound t hu hfirst
        obtain ⟨hgrown', heq'⟩ := solveList_sound ts (by simpa using hlen) hus h
        refine ⟨hgrown.trans hgrown', ?_⟩
        rw [instantiateList, hgrown'.instantiate_eq fun x hx => hgrown.covers hx, heq, heq']
      · rename_i hfailed
        exact absurd h (hfailed solved')

theorem solveFields_sound : ∀ (expected : List (String × Ty)) {actual : List (String × Ty)}
    {solved solved' : NameMap Ty}, expected.length = actual.length → (∀ f ∈ actual, f.2.Solid) →
    solveFields expected actual solved = (true, solved') →
    Grown solved solved' (varsFields expected) ∧ instantiateFields solved'.get? expected = actual
  | [], actual, solved, solved', hlen, _, h => by
    obtain rfl : actual = [] := List.length_eq_zero_iff.1 hlen.symm
    rw [solveFields] at h
    · obtain ⟨_, rfl⟩ := Prod.mk.inj h
      exact ⟨.refl, rfl⟩
    · simp
  | (name, t) :: fields, actual, solved, solved', hlen, hactual, h => by
    cases actual with
    | nil => simp at hlen
    | cons g gs =>
      obtain ⟨name', u⟩ := g
      obtain ⟨hu, hgs⟩ := List.forall_mem_cons.1 hactual
      rw [solveFields] at h
      split at h
      · rename_i hname
        split at h
        · rename_i middle hfirst
          obtain ⟨hgrown, heq⟩ := solve_sound t hu hfirst
          obtain ⟨hgrown', heq'⟩ := solveFields_sound fields (by simpa using hlen) hgs h
          refine ⟨hgrown.trans hgrown', ?_⟩
          rw [instantiateFields, hgrown'.instantiate_eq fun x hx => hgrown.covers hx, heq, heq', hname]
        · rename_i hfailed
          exact absurd h (hfailed solved')
      · cases h

end

/-! ### Every substitution is found -/

/-- All solutions are those of the substitution. -/
def Within (solved : NameMap Ty) (σ : Subst) : Prop := ∀ x t, solved.get? x = some t → σ x = some t

mutual

/-- Where a substitution makes the expected type equal to the actual one, the match succeeds and finds
no other solutions. -/
theorem solve_complete : ∀ (expected : Ty) {actual : Ty} {solved : NameMap Ty} {σ : Subst},
    expected.isQuantifierFree = true → actual.vars = [] → Within solved σ →
    instantiate σ expected = actual →
    ∃ solved', solve expected actual solved = (true, solved') ∧ Within solved' σ
  | .var name, actual, solved, σ, _, hclosed, hwithin, heq => by
    have hname : σ name = some actual := by
      rw [instantiate] at heq
      cases hσ : σ name with
      | none =>
        rw [hσ] at heq
        rw [← heq] at hclosed
        simp [vars] at hclosed
      | some t => rw [hσ] at heq; rw [← heq]; rfl
    rw [solve]
    split
    · rename_i t hsolved
      obtain rfl : actual = t := Option.some.inj (hname.symm.trans (hwithin name t hsolved))
      exact ⟨solved, by simp, hwithin⟩
    · refine ⟨_, rfl, fun x t hx => ?_⟩
      by_cases hxn : x = name
      · subst hxn
        rw [OrderedMap.get?_insert_self] at hx
        cases hx
        exact hname
      · rw [OrderedMap.get?_insert_of_ne hxn] at hx
        exact hwithin x t hx
  | .array elem size, actual, solved, σ, hfree, hclosed, hwithin, heq => by
    subst heq
    rw [instantiate]
    simp only [solve]
    by_cases hsame : Ty.array elem size = .array (instantiate σ elem) size
    · exact ⟨solved, if_pos hsame, hwithin⟩
    · rw [if_neg hsame, if_pos trivial]
      exact solve_complete elem hfree hclosed hwithin rfl
  | .tuple elems, actual, solved, σ, hfree, hclosed, hwithin, heq => by
    subst heq
    rw [instantiate]
    simp only [solve]
    by_cases hsame : Ty.tuple elems = .tuple (instantiateList σ elems)
    · exact ⟨solved, if_pos hsame, hwithin⟩
    · rw [if_neg hsame, if_pos (by rw [instantiateList_eq_map, List.length_map])]
      exact solveList_complete elems hfree hclosed hwithin
  | .object fields, actual, solved, σ, hfree, hclosed, hwithin, heq => by
    subst heq
    rw [instantiate]
    simp only [solve]
    by_cases hsame : Ty.object fields = .object (instantiateFields σ fields)
    · exact ⟨solved, if_pos hsame, hwithin⟩
    · rw [if_neg hsame, if_pos (by rw [instantiateFields_eq_map, List.length_map])]
      exact solveFields_complete fields hfree hclosed hwithin
  | .func dom rng, actual, solved, σ, hfree, hclosed, hwithin, heq => by
    subst heq
    rw [isQuantifierFree, Bool.and_eq_true] at hfree
    rw [instantiate, vars, List.append_eq_nil_iff] at hclosed
    rw [instantiate]
    simp only [solve]
    by_cases hsame : Ty.func dom rng = .func (instantiateList σ dom) (instantiate σ rng)
    · exact ⟨solved, if_pos hsame, hwithin⟩
    · obtain ⟨middle, hdom, hmiddle⟩ := solveList_complete dom hfree.1 hclosed.1 hwithin
      rw [if_neg hsame, if_pos (by rw [instantiateList_eq_map, List.length_map]), hdom]
      exact solve_complete rng hfree.2 hclosed.2 hmiddle rfl
  | .null, _, solved, _, _, _, hwithin, heq | .bool, _, solved, _, _, _, hwithin, heq
  | .uint256, _, solved, _, _, _, hwithin, heq | .bytes, _, solved, _, _, _, hwithin, heq
  | .address, _, solved, _, _, _, hwithin, heq => by
    subst heq
    exact ⟨solved, by simp [solve, instantiate], hwithin⟩
  | .forAll _ _, _, _, _, hfree, _, _, _ => by simp [isQuantifierFree] at hfree

theorem solveList_complete : ∀ (expected : List Ty) {solved : NameMap Ty} {σ : Subst},
    allQuantifierFree expected = true → varsList (instantiateList σ expected) = [] →
    Within solved σ → ∃ solved', solveList expected (instantiateList σ expected) solved =
      (true, solved') ∧ Within solved' σ
  | [], solved, _, _, _, hwithin => ⟨solved, by simp [solveList], hwithin⟩
  | t :: ts, solved, σ, hfree, hclosed, hwithin => by
    rw [allQuantifierFree, Bool.and_eq_true] at hfree
    rw [instantiateList, varsList, List.append_eq_nil_iff] at hclosed
    obtain ⟨middle, hfirst, hmiddle⟩ := solve_complete t hfree.1 hclosed.1 hwithin rfl
    obtain ⟨solved', hrest, hsolved⟩ := solveList_complete ts hfree.2 hclosed.2 hmiddle
    exact ⟨solved', by simp only [instantiateList, solveList, hfirst, hrest], hsolved⟩

theorem solveFields_complete : ∀ (expected : List (String × Ty)) {solved : NameMap Ty} {σ : Subst},
    fieldsQuantifierFree expected = true → varsFields (instantiateFields σ expected) = [] →
    Within solved σ → ∃ solved', solveFields expected (instantiateFields σ expected) solved =
      (true, solved') ∧ Within solved' σ
  | [], solved, _, _, _, hwithin => ⟨solved, by simp [solveFields], hwithin⟩
  | (name, t) :: fields, solved, σ, hfree, hclosed, hwithin => by
    rw [fieldsQuantifierFree, Bool.and_eq_true] at hfree
    rw [instantiateFields, varsFields, List.append_eq_nil_iff] at hclosed
    obtain ⟨middle, hfirst, hmiddle⟩ := solve_complete t hfree.1 hclosed.1 hwithin rfl
    obtain ⟨solved', hrest, hsolved⟩ := solveFields_complete fields hfree.2 hclosed.2 hmiddle
    exact ⟨solved', by simp only [instantiateFields, solveFields, if_pos, hfirst, hrest], hsolved⟩

end

/-! ### Application -/

variable {loc : Loc} {s : Supply} {dom : List Ty} {rng : Ty} {args : List Value}
  {typed : List (Ty × Ir.Arg)} {solved : NameMap Ty}

theorem lookup_eq_some_iff_of_nodup {α : Type} {entries : List (String × α)} {x : String} {a : α}
    (h : (entries.map (·.1)).Nodup) : entries.lookup x = some a ↔ (x, a) ∈ entries := by
  induction entries with
  | nil => simp
  | cons first rest ih =>
    rw [List.map_cons, List.nodup_cons] at h
    rw [List.lookup_cons, List.mem_cons]
    by_cases heq : x = first.1
    · subst heq
      have hrest : (first.1, a) ∉ rest := fun hmem => h.1 (List.mem_map.2 ⟨_, hmem, rfl⟩)
      simp [hrest, Prod.ext_iff, eq_comm]
    · have hne : (x == first.1) = false := by simpa using heq
      rw [hne, ih h.2]
      simp [Prod.ext_iff, heq]

/-- Substituting solutions in whatever order comes to substituting them at once. -/
theorem Grown.substAll_eq {met : List String} (h : Grown {} solved met) (hrng : rng.Ordered)
    {order : List (String × Ty)} (horder : order.Perm solved.entries) :
    rng.substAll order = instantiate solved.get? rng := by
  have hnodup : (solved.entries.map (·.1)).Nodup := h.nodup (by simp)
  have hnodup' : (order.map (·.1)).Nodup := (horder.map _).nodup_iff.2 hnodup
  have hsolid : ∀ e ∈ order, e.2.vars = [] ∧ e.2.Ordered := by
    intro e he
    have hget : solved.get? e.1 = some e.2 := by
      rw [OrderedMap.get?_eq_lookup, lookup_eq_some_iff_of_nodup hnodup]
      exact horder.mem_iff.1 he
    rcases h.only hget with hempty | ⟨_, hsolid⟩
    · simp [OrderedMap.get?] at hempty
    · exact ⟨hsolid.closed, hsolid.ordered⟩
  rw [substAll_eq_instantiate hrng hsolid]
  refine instantiate_congr rng fun x _ => Option.ext fun t => ?_
  rw [lookup_eq_some_iff_of_nodup hnodup', horder.mem_iff, OrderedMap.get?_eq_lookup,
    lookup_eq_some_iff_of_nodup hnodup]

/-- Arguments with types are converted exactly where their types match, in order. -/
theorem convertArgs_yields_iff {s' : Supply} {start : NameMap Ty} {operands : List Ir.Arg}
    (hlen : dom.length = args.length)
    (htyped : List.Forall₂ (fun v t => v.typed? = some t) args typed) :
    (convertArgs loc dom args start).Yields s (operands, solved) s' ↔
      solveList dom (typed.map (·.1)) start = (true, solved) ∧ operands = typed.map (·.2) ∧
        s' = s := by
  constructor
  · intro h
    obtain ⟨ts, hts, rfl, hsolve, rfl⟩ := convertArgs_yields hlen h
    obtain rfl : ts = typed :=
      List.right_unique_forall₂' (fun _ _ _ h h' => Option.some.inj (h.symm.trans h')) hts htyped
    exact ⟨hsolve, rfl, rfl⟩
  · rintro ⟨hsolve, rfl, rfl⟩
    induction htyped generalizing dom start with
    | nil =>
      obtain rfl : dom = [] := List.length_eq_zero_iff.1 hlen
      simpa [convertArgs, solveList, eq_comm] using hsolve
    | @cons v first args rest hfirst hrest ih =>
      cases dom with
      | nil => simp at hlen
      | cons t dom =>
        simp only [List.map_cons, solveList] at hsolve
        rcases hstep : t.solve first.1 start with ⟨_ | _, middle⟩
        · simp [hstep] at hsolve
        · simp only [hstep] at hsolve
          simp only [convertArgs, yields_bind, Value.typeOf_yields, hfirst, Option.some.injEq]
          refine ⟨first, s', ⟨rfl, rfl⟩, ?_⟩
          simp only [hstep, yields_bind, yields_pure, Prod.mk.injEq]
          exact ⟨_, s', ih (by simpa using hlen) hsolve, ⟨rfl, rfl⟩, rfl⟩

theorem convert_yields_iff {funType : Ty} {r : Ty × List Ir.Arg} {s' : Supply}
    (hfun : funType.stripForAll = .func dom rng)
    (htyped : List.Forall₂ (fun v t => v.typed? = some t) args typed) :
    (funType.convert loc args).Yields s r s' ↔ dom.length = args.length ∧
      ∃ solved, solveList dom (typed.map (·.1)) {} = (true, solved) ∧
        r = (rng.substAll solved.entries, typed.map (·.2)) ∧ s' = s := by
  simp only [convert, hfun, yields_bind, yields_ensure, yields_pure, decide_eq_true_eq]
  constructor
  · rintro ⟨_, _, ⟨hlen, rfl⟩, ⟨operands, solved⟩, _, hargs, rfl, rfl⟩
    obtain ⟨hsolve, rfl, rfl⟩ := (convertArgs_yields_iff hlen htyped).1 hargs
    exact ⟨hlen, solved, hsolve, rfl, rfl⟩
  · rintro ⟨hlen, solved, hsolve, rfl, rfl⟩
    exact ⟨(), s', ⟨hlen, rfl⟩, (typed.map (·.2), solved), s',
      (convertArgs_yields_iff hlen htyped).2 ⟨hsolve, rfl, rfl⟩, rfl, rfl⟩

/-- What a match finds is what any substitution that makes the types equal has for the variables
that occur. -/
theorem Grown.get?_eq_restrict {met : List String} {σ : Subst} (h : Grown {} solved met)
    (hwithin : Within solved σ) : solved.get? = σ.restrict met := by
  funext x
  unfold Subst.restrict
  split
  · rename_i hx
    obtain ⟨t, ht⟩ := h.covers hx
    rw [ht, hwithin x t ht]
  · rename_i hx
    refine Option.eq_none_iff_forall_not_mem.2 fun t ht => ?_
    rcases h.only ht with hempty | ⟨hmet, _⟩
    · simp [OrderedMap.get?] at hempty
    · exact hx hmet

theorem allQuantifierFree_of_forall {ts : List Ty} (h : ∀ t ∈ ts, t.isQuantifierFree = true) :
    allQuantifierFree ts = true := by
  induction ts with
  | nil => rfl
  | cons t ts ih =>
    obtain ⟨ht, hts⟩ := List.forall_mem_cons.1 h
    rw [allQuantifierFree, ht, ih hts, Bool.and_self]

/-- Functions are applied exactly where types for the variables of the domain make it equal to the
types of the arguments. The result is the range with these types put in, together with the operands
of the arguments, whatever the order in which the solutions are substituted. -/
theorem convert_applies_matching (funType : Ty) (loc : Loc) (s : Supply)
    (hfun : funType.stripForAll = .func dom rng) (hdom : ∀ t ∈ dom, t.isQuantifierFree = true)
    (hrng : rng.Ordered) (htyped : List.Forall₂ (fun v t => v.typed? = some t) args typed)
    (hsolid : ∀ t ∈ typed, t.1.vars = [] ∧ t.1.Ordered) :
    ((∃ r s', (funType.convert loc args).Yields s r s') ↔
      dom.length = args.length ∧ ∃ σ : Subst, dom.map (instantiate σ) = typed.map (·.1)) ∧
    ∀ σ : Subst, dom.map (instantiate σ) = typed.map (·.1) →
      (funType.convert loc args).Yields s
        (instantiate (σ.restrict (dom.flatMap vars)) rng, typed.map (·.2)) s ∧
      ∃ solved : NameMap Ty,
        (convertArgs loc dom args {}).Yields s (typed.map (·.2), solved) s ∧
        ∀ order : List (String × Ty), order.Perm solved.entries →
          rng.substAll order = instantiate (σ.restrict (dom.flatMap vars)) rng := by
  have hactual : ∀ t ∈ typed.map (·.1), t.Solid :=
    List.forall_mem_map.2 fun t ht => ⟨(hsolid t ht).1, (hsolid t ht).2⟩
  have hlength : args.length = typed.length := htyped.length_eq
  have hfound : ∀ σ : Subst, dom.map (instantiate σ) = typed.map (·.1) →
      dom.length = args.length ∧ ∃ solved, solveList dom (typed.map (·.1)) {} = (true, solved) ∧
        Within solved σ := by
    intro σ hσ
    have hlen : dom.length = args.length := by simpa [hlength] using congrArg List.length hσ
    rw [← instantiateList_eq_map] at hσ
    have hclosed : varsList (instantiateList σ dom) = [] := by
      rw [hσ, varsList_eq_flatMap, List.flatMap_eq_nil_iff]
      exact fun t ht => (hactual t ht).closed
    have hstart : Within {} σ := by simp [Within, OrderedMap.get?]
    obtain ⟨solved, hsolve, hwithin⟩ :=
      solveList_complete dom (allQuantifierFree_of_forall hdom) hclosed hstart
    exact ⟨hlen, solved, by rwa [hσ] at hsolve, hwithin⟩
  refine ⟨⟨?_, ?_⟩, fun σ hσ => ?_⟩
  · rintro ⟨r, s', hrun⟩
    obtain ⟨hlen, solved, hsolve, _, _⟩ := (convert_yields_iff hfun htyped).1 hrun
    obtain ⟨_, heq⟩ := solveList_sound dom (by simpa [hlength] using hlen) hactual hsolve
    exact ⟨hlen, solved.get?, by rw [← instantiateList_eq_map, heq]⟩
  · rintro ⟨_, σ, hσ⟩
    obtain ⟨hlen, solved, hsolve, _⟩ := hfound σ hσ
    exact ⟨_, s, (convert_yields_iff hfun htyped).2 ⟨hlen, solved, hsolve, rfl, rfl⟩⟩
  · obtain ⟨hlen, solved, hsolve, hwithin⟩ := hfound σ hσ
    obtain ⟨hgrown, _⟩ := solveList_sound dom (by simpa [hlength] using hlen) hactual hsolve
    have horder : ∀ order : List (String × Ty), order.Perm solved.entries →
        rng.substAll order = instantiate (σ.restrict (dom.flatMap vars)) rng := by
      intro order hperm
      rw [hgrown.substAll_eq hrng hperm, hgrown.get?_eq_restrict hwithin, varsList_eq_flatMap]
    refine ⟨(convert_yields_iff hfun htyped).2 ⟨hlen, solved, hsolve, ?_, rfl⟩, solved,
      (convertArgs_yields_iff hlen htyped).2 ⟨hsolve, rfl, rfl⟩, horder⟩
    rw [horder solved.entries (.refl _)]

/-- A repeated variable is solved once and checked again; a variable of the domain that the range
binds itself is left alone there. -/
theorem convert_applies_at_pair :
    (Ty.convert (.forAll "a" (.forAll "b" (.func [.var "a", .tuple [.var "a", .var "b"]]
        (.forAll "b" (.tuple [.var "a", .var "b"]))))) .synthetic
      [.int .synthetic 1, .tuple .synthetic [.int .synthetic 2, .bool .synthetic true]]).Yields {}
      (.forAll "b" (.tuple [.uint256, .var "b"]),
        [.int 1, .tuple [.int 2, .const (.bool true)]]) {} := by
  have htyped : List.Forall₂ (fun (v : Value) t => v.typed? = some t)
      [.int .synthetic 1, .tuple .synthetic [.int .synthetic 2, .bool .synthetic true]]
      [(.uint256, .int 1), (.tuple [.uint256, .bool], .tuple [.int 2, .const (.bool true)])] :=
    .cons rfl (.cons rfl .nil)
  have hrng : (Ty.forAll "b" (.tuple [.var "a", .var "b"])).Ordered :=
    .forAll (.tuple (by simp [Ordered.var]))
  have hpair : (Ty.tuple [.uint256, .bool]).Ordered :=
    .tuple (by simp [Ordered.uint256, Ordered.bool])
  have happly := convert_applies_matching (.forAll "a" (.forAll "b" (.func
      [.var "a", .tuple [.var "a", .var "b"]] (.forAll "b" (.tuple [.var "a", .var "b"])))))
    .synthetic {} rfl (by decide) hrng htyped (by simp [vars, varsList, Ordered.uint256, hpair])
  exact (happly.2 (fun x => [("a", Ty.uint256), ("b", Ty.bool)].lookup x) rfl).1

end Ty

end Choreography
