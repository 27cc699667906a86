import Choreography.Elaborate.Access
import Choreography.Elaborate.Declaration
import Choreography.Proofs.Emission

/-!
The parts of formed values are formed: fields of objects, elements of tuples and arrays, and the
constructs that participants and rounds offer like fields.
-/

namespace Choreography

open Eval Ir

variable {R : Regime} {J : List (String × Var)} {X : List Known} {s s' : Supply} {loc : Loc}
  {ctx : Ctx} {level : Level} {name : String}

/-! ### Fields -/

theorem Participant.field_formed {p : Participant} :
    From s (fun v s' => v.Formed R X .pub ∧ s.nextId ≤ s'.nextId) (p.field loc name) := by
  unfold Participant.field
  split
  · exact .freshTag (.pure ⟨.only, Nat.le_refl _⟩)
  · split
    · exact .freshTag (.pure ⟨.round (by simp [Round.idents]), Nat.le_refl _⟩)
    · exact .fail

theorem Round.field_formed {round : Round} {roundLoc : Loc} (hround : R.Admits round.idents) :
    From s (fun v s' => v.Formed R X .pub ∧ s.nextId ≤ s'.nextId)
      (round.field loc roundLoc name) := by
  unfold Round.field
  split
  · exact .freshTag (.pure ⟨.round hround, Nat.le_refl _⟩)
  · exact .fail

theorem Ctx.fieldRef_sound {type : Ty} {object : Arg} {held : Level}
    (hobject : object.Formed R X level) (htype : object.type = type) :
    Computes R J X s (fun Y sv => SecValue.Formed R Y (sv.taint level))
      (ctx.fieldRef loc type object name held) := by
  unfold Ctx.fieldRef
  split
  · rename_i fieldType hfield
    refine ⟨fun hrun => ?_⟩
    obtain ⟨v, rfl, hid, rfl, rfl⟩ := Ctx.liftValue_yields hrun
    have hcomputed : (Expr.objectRef object name).Formed R X level v.type :=
      .silent rfl (.objectRef (htype ▸ hfield)) (by simpa [Expr.operands] using hobject)
    refine ⟨_, _, .letIn hcomputed hid rfl, .var ?_⟩
    exact Regime.Sees.mono (.of_mem (List.mem_append_right X List.mem_cons_self))
      (List.Subset.refl _) .meet_left
  · exact .fail

/-- The field of a value is sound once it is as secret as the value itself. -/
theorem Ctx.field_sound {v : Value} (hv : v.Formed R X level) :
    Computes R J X s (fun Y sv => SecValue.Formed R Y (sv.taint level)) (ctx.field loc v name) := by
  unfold Ctx.field
  cases hv with
  | object _ hfields =>
    simp only
    split
    · rename_i sv hfind
      have hsv : SecValue.Formed R X sv := hfields _ (Bindings.mem_of_find? hfind)
      exact .plain hsv.taint
    · exact .fail
  | @var _ x hx =>
    simp only
    split
    · exact Ctx.fieldRef_sound (.var hx) rfl
    · exact .fail
  | participant _ =>
    exact Participant.field_formed.bind fun _ _ h => .pure (.plain h.2 (SecValue.Formed.taint h.1))
  | round hround =>
    simp only
    split
    · exact .fail
    · exact (Round.field_formed hround).bind fun _ _ h =>
        .pure (.plain h.2 (SecValue.Formed.taint h.1))
  | @prim _ _ p hp =>
    cases p with
    | interact who method type =>
      obtain ⟨hallows, hoffers, _⟩ := hp
      simp only
      split
      · exact Ctx.fieldRef_sound (.interact hallows hoffers (by simp)) rfl
      · exact .fail
    | _ => exact .fail
  | _ => exact .fail

/-! ### Elements -/

theorem checkIndex_yields {size i : Nat} {index : Int}
    (hrun : (checkIndex loc size index).Yields s i s') :
    (Integer.count? index = some i ∧ i < size) ∧ s' = s := by
  unfold checkIndex at hrun
  split at hrun
  · split at hrun
    · simp only [yields_pure] at hrun
      obtain ⟨rfl, rfl⟩ := hrun
      exact ⟨⟨by assumption, by assumption⟩, rfl⟩
    · simp at hrun
  · simp at hrun

theorem Integer.count?_eq_some {n : Int} {i : Nat} (h : Integer.count? n = some i) : n = i := by
  unfold Integer.count? at h
  split at h
  · rename_i m hword
    unfold Integer.word? at hword
    split at hword
    · cases h
      exact Option.some.inj hword
    · cases hword
  · cases h

theorem Ctx.arrayRef_sound {x : Var} {elem : Ty} {size : Nat} {index : Arg}
    (hx : R.Sees X level x) (htype : x.type = .array elem size)
    (hindex : index.Formed R X level) (hindexType : index.type = .uint256)
    (hbound : ∀ n, index = .int n → 0 ≤ n ∧ n < size) :
    Computes R J X s (SecValue.Formed R) (ctx.arrayRef loc x elem size index level) := by
  refine Ctx.liftValue_sound (.silent rfl ?_ ?_)
  · exact .arrayRef htype hindexType hbound
  · simpa [Expr.operands] using ⟨.var hx, hindex⟩

/-- The element of a value at an index, both held at one level, is sound at that level. -/
theorem Ctx.element_sound {v index : Value} (hv : v.Formed R X level)
    (hindex : index.Formed R X level) :
    Computes R J X s (SecValue.Formed R) (ctx.element loc v index level) := by
  unfold Ctx.element
  cases hindex with
  | @int _ _ n =>
    cases hv with
    | tuple helems =>
      exact .keep checkIndex_yields fun _ _ => .orFail fun elem helem =>
        .plain (helems elem (List.mem_of_getElem? helem))
    | @var _ x hx =>
      simp only
      split
      · rename_i elems htype
        refine .keep checkIndex_yields fun _ _ => .orFail fun elem helem =>
          Ctx.liftValue_sound (.silent rfl ?_ ?_)
        · exact .tupleRef htype helem
        · simpa [Expr.operands] using .var hx
      · rename_i elem size htype
        refine .keep checkIndex_yields fun i hcheck =>
          Ctx.arrayRef_sound hx htype .const rfl fun m hm => ?_
        have hn : n = m := by simpa [Arg.int] using hm
        have hi := Integer.count?_eq_some hcheck.1
        have hlt := hcheck.2
        omega
      · exact .fail
    | _ => exact .fail
  | @var _ i hi =>
    simp only
    split
    · rename_i hiType
      cases hv with
      | @var _ x hx =>
        simp only
        split
        · rename_i elem size htype
          refine Ctx.arrayRef_sound hx htype (.var hi) hiType ?_
          intro m hm
          cases hm
        · exact .fail
      | _ => exact .fail
    · exact .fail
  | _ => exact .fail

/-! ### Components -/

/-- One more component in front of others. -/
theorem partsCons_sound {x : Var} {code : Code} {s₁ : Supply} {others : Eval (Lifted (List Value))}
    (hcode : Emits R J X s s₁ code [] [⟨level, x⟩] [⟨level, x⟩])
    (hothers : Computes R J (X ++ [⟨level, x⟩]) s₁ (fun Y vs => ∀ v ∈ vs, v.Formed R Y level)
      others) :
    From s₁ (fun r s' => Lifted.Sound R J X s s' (fun Y vs => ∀ v ∈ vs, v.Formed R Y level) r) (do
      let rest ← others
      return ({ code := code ++ rest.code, value := .var x :: rest.value } :
        Lifted (List Value))) := by
  refine hothers.andThen fun rest _ O B hrest hvalues => .pure
    ⟨_, _, hcode.append hrest, List.forall_mem_cons.2 ⟨.var ?_, by simpa using hvalues⟩⟩
  exact ⟨level, by simp, .refl⟩

theorem Ctx.tupleParts_sound {v : Var} {all : List Ty} (hv : R.Sees X level v)
    (htype : v.type = .tuple all) {types : List Ty} :
    ∀ {i : Nat} {X' : List Known} {s : Supply}, X ⊆ X' →
      (∀ j t, types[j]? = some t → all[i + j]? = some t) →
      Computes R J X' s (fun Y vs => ∀ v ∈ vs, v.Formed R Y level)
        (ctx.tupleParts loc v i types) := by
  induction types with
  | nil => exact fun _ _ => .plain (by simp)
  | cons t types ih =>
    intro i X' s hsub hcomponents
    have hcomponent : all[i]? = some t := by simpa using hcomponents 0 t (by simp)
    have hcomputed : (Expr.tupleRef (.var v) i).Formed R X' level t :=
      .silent rfl (.tupleRef htype hcomponent)
        (by simpa [Expr.operands] using .var (hv.mono hsub .refl))
    refine (Ctx.lift_emits hcomputed).bind fun _ _ hcode => partsCons_sound hcode
      (ih (List.Subset.trans hsub (List.subset_append_left _ _)) fun j u hj => ?_)
    have hnext := hcomponents (j + 1) u (by simpa using hj)
    rwa [Nat.add_assoc, Nat.add_comm 1 j]

theorem Ctx.arrayParts_sound {v : Var} {elem : Ty} {size : Nat} (hv : R.Sees X level v)
    (htype : v.type = .array elem size) {positions : List Nat} :
    ∀ {X' : List Known} {s : Supply}, X ⊆ X' → (∀ i ∈ positions, i < size) →
      Computes R J X' s (fun Y vs => ∀ v ∈ vs, v.Formed R Y level)
        (ctx.arrayParts loc v elem size positions) := by
  induction positions with
  | nil => exact fun _ _ => .plain (by simp)
  | cons i positions ih =>
    intro X' s hsub hbound
    obtain ⟨hi, hrestBound⟩ := List.forall_mem_cons.1 hbound
    have hindex : ∀ n, Arg.int i = .int n → 0 ≤ n ∧ n < size := by
      intro n hn
      have heq : (i : Int) = n := by simpa [Arg.int] using hn
      omega
    have hcomputed : (Expr.arrayRef ctx.frames (.var v) size (.int i)).Formed R X' level elem := by
      refine .silent rfl (.arrayRef htype rfl hindex) ?_
      simpa [Expr.operands] using ⟨.var (hv.mono hsub .refl), .const⟩
    exact (Ctx.lift_emits hcomputed).bind fun _ _ hcode => partsCons_sound hcode
      (ih (List.Subset.trans hsub (List.subset_append_left _ _)) hrestBound)

/-- What destructuring takes from a formed value is formed at the value's level. -/
theorem Ctx.components_sound {v : Value} (hv : v.Formed R X level) :
    Computes R J X s (fun Y vs => ∀ v ∈ vs, v.Formed R Y level) (ctx.components loc v) := by
  unfold Ctx.components
  cases hv with
  | tuple helems => exact .plain helems
  | @var _ x hx =>
    simp only
    split
    · rename_i elems htype
      exact Ctx.tupleParts_sound hx htype (List.Subset.refl X) (by simp)
    · rename_i elem size htype
      exact Ctx.arrayParts_sound hx htype (List.Subset.refl X) (by simp)
    · exact .fail
  | _ => exact .fail

end Choreography
