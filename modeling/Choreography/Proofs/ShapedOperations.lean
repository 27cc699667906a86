import Choreography.Proofs.ShapedValues

/-!
Operations on values of a shape. Primitives other than those that make enumerations and reveal secrets
give data, and the parts of a value have the shape of the value. The constructs that participants and
rounds offer are reached by their fields only.
-/

namespace Choreography

open Eval Ir

variable {S : Setting} {Γ : Shaping} {σ : Shape} {n : Nat} {u : Use} {v : Value} {loc : Loc}
  {ctx : Ctx} {env : Bindings} {args : List SecValue}

/-! ### Primitives -/

theorem Value.Atomic.tame (h : v.Atomic) : v.Tame := by
  cases h <;> exact .atom rfl

/-- Primitives give data, except for those that make enumerations and reveal secrets. -/
theorem Prim.ComesTo.tame {p : Prim} {primLoc : Loc} (h : p.ComesTo ctx loc env args v)
    (hp : (Value.prim primLoc p).isTame = true) : v.Tame := by
  cases h with
  | atomic h => exact h.tame
  | enumeration | declassified => cases hp
  | committed | exited => exact .atom rfl
  | payment =>
    refine .object fun b hb => ?_
    obtain rfl := List.mem_singleton.1 (Env.mem_ofList hb)
    exact .atom rfl

namespace Ctx

theorem applyPrim_ends {p : Prim} :
    Ends (fun _ => ctx.applyPrim loc env p args)
      fun r => p.ComesTo ctx loc env args r.value.value := by
  refine .of_meets (applyPrim_meets.toMeets.mono (fun stop hstop hout => ?_) fun _ h => h.value)
  subst hout
  cases hstop with
  | ordinary h => cases h

/-- What is revealed is the argument. -/
theorem applyPrim_declassify_ends (hargs : ∀ sv ∈ args, S.Fits σ sv.value) :
    Ends (fun _ => ctx.applyPrim loc env .declassify args) fun r => S.Fits σ r.value.value := by
  refine applyPrim_ends.imp fun r hr => ?_
  generalize r.value.value = v at hr
  cases hr with
  | atomic h => exact .of_tame h.tame
  | declassified h => exact hargs _ h

/-- An enumeration is the function that tells its members, and data. -/
theorem applyPrim_makeEnum_ends
    (hmember : ∀ enumLoc count tag, S.Fits σ (.closure tag
      { loc := enumLoc, name := some (ctx.localName "makeEnum"), formals := ["x"],
        body := enumBody enumLoc count, env })) :
    Ends (fun _ => ctx.applyPrim loc env .makeEnum args) fun r => S.Fits σ r.value.value := by
  refine applyPrim_ends.imp fun r hr => ?_
  generalize r.value.value = v at hr
  cases hr with
  | atomic h => exact .of_tame h.tame
  | enumeration =>
    refine .tuple (List.forall_mem_cons.2 ⟨hmember .., fun v hv => ?_⟩)
    obtain ⟨i, _, rfl⟩ := List.mem_map.1 hv
    exact .of_tame (.atom rfl)

end Ctx

/-! ### Parts of values -/

theorem Stage.name_mem_constructs (stage : Stage) : stage.name ∈ constructs := by
  cases stage <;> decide

namespace Use.Holds

/-- A construct is what is known of the field by which it is offered. -/
theorem construct {field : String} (hfield : field ∈ constructs)
    (h : u.offers = true → v.Acts S Γ n (some field)) : (u.field field).Holds S Γ n v := by
  unfold Use.field
  rw [if_pos hfield]
  split
  · rename_i hoffers
    exact h hoffers
  · exact .any

/-- The components of a value have the shape that is known of its elements. -/
theorem element (h : u.Holds S Γ n v) (htame : v.isTame = false)
    (hform : ∀ loc tag f, v ≠ .form loc tag f) : S.Fits u.element v := by
  cases u with
  | value => exact h
  | act =>
    cases h with
    | data h => exact .of_data h
    | only => exact absurd rfl (hform _ _ _)
    | done => exact absurd rfl (hform _ _ _)
    | round => exact absurd rfl (hform _ _ _)

/-- The fields of an object are used as is known of the object. -/
theorem field {fields : Bindings} (h : u.Holds S Γ n (.object loc fields)) {name field : String}
    {sv : SecValue} (hmem : (name, sv) ∈ fields.entries) : (u.field field).Holds S Γ n sv.value := by
  have helement := (h.element rfl (by simp)).fields _ hmem
  unfold Use.field
  split
  · split
    · rename_i hoffers
      have hdata : u.element = .data := by
        unfold Use.offers at hoffers
        unfold Use.element
        split at hoffers <;> simp_all
      rw [hdata] at helement
      exact .data helement
    · exact .any
  · exact helement

end Use.Holds

/-- A round that is known to be in the value keeps parts that have shapes. -/
theorem Use.Holds.stores {tag : Tag} {r : Round} (h : u.Holds S Γ n (.form loc tag (.round r)))
    (hoffers : u.offers = true) : r.Stores Γ n := by
  cases u with
  | act =>
    cases h with
    | data h => cases h.eq_app (by simp)
    | round h => exact h
  | value σ =>
    cases σ with
    | data => cases Setting.Fits.eq_app h (by simp)
    | _ => cases hoffers

theorem Value.Offers.holds {part : Value} {field : String} (h : v.Offers loc field part)
    (hv : u.Holds S Γ n v) : (u.field field).Holds S Γ n part := by
  cases h with
  | part hfind => exact hv.field (Bindings.mem_of_find? hfind)
  | only hname =>
    subst hname
    exact .construct (by decide) fun _ => .only rfl
  | start hname =>
    subst hname
    refine .construct (Stage.name_mem_constructs _) fun _ => .round ⟨by simp, by simp⟩ ?_
    rintro _ ⟨⟩
    rfl
  | next hname =>
    subst hname
    refine .construct (Stage.name_mem_constructs _) fun hoffers => ?_
    have hstores := hv.stores hoffers
    refine .round ⟨hstores.pay, hstores.timeout⟩ ?_
    rintro _ ⟨⟩
    rfl

namespace Ctx

theorem field_ends (hv : u.Holds S Γ n v) (field : String) :
    Ends (fun _ => ctx.field loc v field) fun r => (u.field field).Holds S Γ n r.value.value :=
  .of_faults (field_meets.toMeets.imp fun _ h =>
    h.2.elim (fun h => Use.Holds.of_tame h.tame) fun h => h.holds hv)

theorem element_ends (hv : u.Holds S Γ n v) (index : Value) (level : Level) :
    Ends (fun _ => ctx.element loc v index level) fun r => S.Fits u.element r.value.value := by
  refine .of_faults (element_meets.toMeets.imp fun r h => ?_)
  obtain h | ⟨_, _, rfl, hpart⟩ := h.2
  · exact .of_tame h.tame
  · exact (hv.element rfl (by simp)).elems _ hpart

theorem components_ends (hv : S.Fits σ v) :
    Ends (fun _ => ctx.components loc v) fun r => ∀ v ∈ r.value, S.Fits σ v := by
  refine .of_faults (components_meets.toMeets.imp fun r h part hpart => ?_)
  obtain h | ⟨_, _, rfl, hmem⟩ := h.2 part hpart
  · exact .of_tame h.tame
  · exact hv.elems _ hmem

end Ctx

end Choreography
