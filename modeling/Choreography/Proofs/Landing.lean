import Choreography.Proofs.Delimitation
import Choreography.Proofs.Modes
import Choreography.Proofs.Slots

/-!
Where jumps land. Statements are listed with what stands around them: the prompts that they are
inside of, and the loops in whose turns they run. Returns lie inside a prompt of their slot, and in
the program of an app each continue assigns variables of the innermost loop around it.
-/

namespace Choreography

open Eval Ir

namespace Ir

/-- What catches jumps: a prompt catches the returns to its slot, and a loop catches the continues
of its turns. -/
inductive Enclosure
  | prompt (slot : Nat)
  | turn (init : Assignment)

namespace Enclosure

def slot? : Enclosure → Option Nat
  | .prompt slot => some slot
  | .turn _ => none

def init? : Enclosure → Option Assignment
  | .turn init => some init
  | .prompt _ => none

/-- The slots of the prompts around a place. -/
def slots (around : List Enclosure) : List Nat := around.filterMap slot?

/-- The variables of the innermost loop around a place, with their initial values. -/
def innermost? (around : List Enclosure) : Option Assignment := around.findSome? init?

@[simp] theorem slots_nil : slots [] = [] := rfl

variable (around : List Enclosure)

@[simp] theorem slots_prompt (slot : Nat) : slots (.prompt slot :: around) = slot :: slots around :=
  rfl

@[simp] theorem slots_turn (init : Assignment) : slots (.turn init :: around) = slots around := rfl

@[simp] theorem innermost?_turn (init : Assignment) : innermost? (.turn init :: around) = some init :=
  rfl

@[simp] theorem slots_append (inner : List Enclosure) :
    slots (inner ++ around) = slots inner ++ slots around := by
  simp [slots]

end Enclosure

mutual

/-- The statements inside a statement, at every depth, each with what stands around it. -/
def Stmt.placedIn (around : List Enclosure) : Stmt → List (List Enclosure × Stmt)
  | .prompt _ slot _ body => placed (.prompt slot :: around) body
  | .only _ _ body | .fromConsensus _ body => placed around body
  | .branch _ _ onTrue onFalse => placed around onTrue ++ placed around onFalse
  | .toConsensus _ ⟨_, _, _, _, _, none, body⟩ => placed around body
  | .toConsensus _ ⟨_, _, _, _, _, some ⟨_, late⟩, body⟩ => placed around late ++ placed around body
  | .loop _ init ⟨_, _, invariant, _⟩ ⟨_, _, cond, _⟩ body =>
    placed around invariant ++ placed around cond ++ placed (.turn init :: around) body
  | .letIn .. | .claim .. | .transfer .. | .stop .. | .ret .. | .cont .. => []

/-- All statements of some code, at every depth, each with what stands around it. -/
def placed (around : List Enclosure) : List Stmt → List (List Enclosure × Stmt)
  | [] => []
  | s :: rest => (around, s) :: (s.placedIn around ++ placed around rest)

end

theorem mem_placed {around : List Enclosure} {code : Code} {p : List Enclosure × Stmt} :
    p ∈ placed around code ↔ ∃ s ∈ code, p = (around, s) ∨ p ∈ s.placedIn around := by
  induction code with
  | nil => simp [placed]
  | cons s rest ih => simp [placed, ih, or_assoc]

mutual

theorem Stmt.placedIn_statements (around : List Enclosure) :
    ∀ s : Stmt, (s.placedIn around).map (·.2) = s.inner
  | .prompt _ slot _ body => by
    simp only [Stmt.placedIn, Stmt.inner, placed_statements (.prompt slot :: around) body]
  | .only _ _ body | .fromConsensus _ body => by
    simp only [Stmt.placedIn, Stmt.inner, placed_statements around body]
  | .branch _ _ onTrue onFalse => by
    simp only [Stmt.placedIn, Stmt.inner, List.map_append, placed_statements around onTrue,
      placed_statements around onFalse]
  | .toConsensus _ ⟨_, _, _, _, _, none, body⟩ => by
    simp only [Stmt.placedIn, Stmt.inner, placed_statements around body]
  | .toConsensus _ ⟨_, _, _, _, _, some ⟨_, late⟩, body⟩ => by
    simp only [Stmt.placedIn, Stmt.inner, List.map_append, placed_statements around late,
      placed_statements around body]
  | .loop _ init ⟨_, _, invariant, _⟩ ⟨_, _, cond, _⟩ body => by
    simp only [Stmt.placedIn, Stmt.inner, List.map_append, placed_statements around invariant,
      placed_statements around cond, placed_statements (.turn init :: around) body]
  | .letIn .. | .claim .. | .transfer .. | .stop .. | .ret .. | .cont .. => by
    simp only [Stmt.placedIn, Stmt.inner, List.map_nil]

/-- Every statement has its place. -/
theorem placed_statements (around : List Enclosure) :
    ∀ code : List Stmt, (placed around code).map (·.2) = statements code
  | [] => by simp only [placed, statements, List.map_nil]
  | s :: rest => by
    simp only [placed, statements, List.map_cons, List.map_append, s.placedIn_statements around,
      placed_statements around rest]

end

/-! ### The prompts around a place -/

/-- What stands around a place in some code: what stands around the code, and inside of it prompts
whose slots are among the code's. -/
def Encloses (around : List Enclosure) (ids : List Nat) (inner : List Enclosure) : Prop :=
  ∃ new, inner = new ++ around ∧ (Enclosure.slots new).reverse.Sublist ids

theorem Encloses.sublist {around inner : List Enclosure} {ids ids' : List Nat}
    (h : Encloses around ids inner) (hsub : ids.Sublist ids') : Encloses around ids' inner := by
  obtain ⟨new, hinner, hnew⟩ := h
  exact ⟨new, hinner, hnew.trans hsub⟩

theorem Encloses.prompt {around inner : List Enclosure} {slot : Nat} {ids : List Nat}
    (h : Encloses (.prompt slot :: around) ids inner) : Encloses around (slot :: ids) inner := by
  obtain ⟨new, rfl, hnew⟩ := h
  refine ⟨new ++ [.prompt slot], by simp, ?_⟩
  simpa using hnew

theorem Encloses.turn {around inner : List Enclosure} {init : Assignment} {ids : List Nat}
    (h : Encloses (.turn init :: around) ids inner) : Encloses around ids inner := by
  obtain ⟨new, rfl, hnew⟩ := h
  refine ⟨new ++ [.turn init], by simp, ?_⟩
  simpa using hnew

mutual

theorem Stmt.placedIn_encloses (around : List Enclosure) :
    ∀ s : Stmt, ∀ p ∈ s.placedIn around, Encloses around (slots [s]) p.1
  | .prompt _ slot _ body => by
    intro p hp
    rw [slots_prompt]
    exact (placed_encloses (.prompt slot :: around) body p
      (by simpa only [Stmt.placedIn] using hp)).prompt
  | .only _ _ body | .fromConsensus _ body => by
    intro p hp
    exact (placed_encloses around body p (by simpa only [Stmt.placedIn] using hp)).sublist (by simp)
  | .branch _ _ onTrue onFalse => by
    intro p hp
    simp only [Stmt.placedIn, List.mem_append] at hp
    rcases hp with ht | hf
    · exact (placed_encloses around onTrue p ht).sublist (by simp)
    · exact (placed_encloses around onFalse p hf).sublist (by simp)
  | .toConsensus _ ⟨_, _, _, _, _, none, body⟩ => by
    intro p hp
    exact (placed_encloses around body p (by simpa only [Stmt.placedIn] using hp)).sublist (by simp)
  | .toConsensus _ ⟨_, _, _, _, _, some ⟨_, late⟩, body⟩ => by
    intro p hp
    simp only [Stmt.placedIn, List.mem_append] at hp
    rcases hp with hlate | hbody
    · exact (placed_encloses around late p hlate).sublist (by simp)
    · exact (placed_encloses around body p hbody).sublist (by simp)
  | .loop _ init ⟨_, _, invariant, _⟩ ⟨_, _, cond, _⟩ body => by
    intro p hp
    simp only [Stmt.placedIn, List.mem_append] at hp
    rcases hp with (hinvariant | hcond) | hbody
    · exact (placed_encloses around invariant p hinvariant).sublist (by simp)
    · refine (placed_encloses around cond p hcond).sublist ?_
      rw [slots_loop]
      exact (List.sublist_append_right _ _).trans (List.sublist_append_left _ _)
    · exact (placed_encloses (.turn init :: around) body p hbody).turn.sublist (by simp)
  | .letIn .. | .claim .. | .transfer .. | .stop .. | .ret .. | .cont .. => by
    intro p hp
    simp [Stmt.placedIn] at hp

theorem placed_encloses (around : List Enclosure) :
    ∀ code : List Stmt, ∀ p ∈ placed around code, Encloses around (slots code) p.1
  | [] => by simp [placed]
  | s :: rest => by
    intro p hp
    simp only [placed, List.mem_cons, List.mem_append] at hp
    rw [slots_cons]
    rcases hp with rfl | hinner | hrest
    · exact ⟨[], rfl, by simp⟩
    · exact (s.placedIn_encloses around p hinner).sublist (List.sublist_append_left _ _)
    · exact (placed_encloses around rest p hrest).sublist (List.sublist_append_right _ _)

end

/-! ### Jumps at their places -/

/-- A jump at its place: a return goes to the outer slot or to a prompt around it, and a continue is
allowed outside or updates the innermost loop around it. -/
def Stmt.Lands (outer : Option Nat) (allowed : Assignment → Prop) (around : List Enclosure) :
    Stmt → Prop
  | .ret _ slot _ => outer = some slot ∨ slot ∈ Enclosure.slots around
  | .cont _ a => allowed a ∨
    ∃ init, Enclosure.innermost? around = some init ∧ a.Updates (init.map (·.1))
  | .letIn .. | .claim .. | .transfer .. | .stop .. | .prompt .. | .branch .. | .only ..
  | .toConsensus .. | .fromConsensus .. | .loop .. => True

variable {slot outer : Option Nat} {allowed reach : Assignment → Prop} {around : List Enclosure}
  {code : Code} {s : Stmt}

/-- Jumps that stay in their bounds land wherever the bounds do. -/
theorem Stmt.Jumps.lands (h : s.Jumps slot allowed) :
    ∀ {around : List Enclosure},
      (∀ i, slot = some i → outer = some i ∨ i ∈ Enclosure.slots around) →
      (∀ a, allowed a → reach a ∨
        ∃ init, Enclosure.innermost? around = some init ∧ a.Updates (init.map (·.1))) →
      ∀ p, p = (around, s) ∨ p ∈ s.placedIn around → p.2.Lands outer reach p.1 := by
  -- inside private code and the tests of a loop there is nowhere to jump to
  have hnever : ∀ {around : List Enclosure} (a : Assignment), a.never → reach a ∨
      ∃ init, Enclosure.innermost? around = some init ∧ a.Updates (init.map (·.1)) :=
    fun _ h => h.elim
  have hcode : ∀ {code : Code} {around : List Enclosure},
      (∀ s ∈ code, ∀ p, p = (around, s) ∨ p ∈ s.placedIn around → p.2.Lands outer reach p.1) →
      ∀ p ∈ placed around code, p.2.Lands outer reach p.1 := by
    intro code around h p hp
    obtain ⟨s, hs, hplace⟩ := mem_placed.1 hp
    exact h s hs p hplace
  induction h with
  | letIn | claim | transfer | stop =>
    rintro around _ _ p (rfl | hp)
    · trivial
    · simp [Stmt.placedIn] at hp
  | ret =>
    rintro around hslot _ p (rfl | hp)
    · exact hslot _ rfl
    · simp [Stmt.placedIn] at hp
  | cont ha =>
    rintro around _ hallowed p (rfl | hp)
    · exact hallowed _ ha
    · simp [Stmt.placedIn] at hp
  | prompt _ _ ih =>
    rintro around _ _ p (rfl | hp)
    · trivial
    · simp only [Stmt.placedIn] at hp
      refine hcode
        (fun s hs => ih s hs (fun i hi => ?_) hnever) p hp
      cases hi
      exact .inr (by simp)
  | branch _ _ iht ihf =>
    rintro around hslot hallowed p (rfl | hp)
    · trivial
    · simp only [Stmt.placedIn, List.mem_append] at hp
      rcases hp with hp | hp
      · exact hcode
          (fun s hs => iht s hs hslot hallowed) p hp
      · exact hcode
          (fun s hs => ihf s hs hslot hallowed) p hp
  | only _ ih =>
    rintro around _ _ p (rfl | hp)
    · trivial
    · simp only [Stmt.placedIn] at hp
      exact hcode
        (fun s hs => ih s hs (by simp) hnever) p hp
  | @toConsensus _ _ loc t _ _ ihlate ih =>
    rintro around hslot hallowed p (rfl | hp)
    · trivial
    · obtain ⟨who, join, whoVar, messages, amount, _ | ⟨delay, late⟩, body⟩ := t
      · simp only [Stmt.placedIn] at hp
        exact hcode
          (fun s hs => ih s hs hslot hallowed) p hp
      · simp only [Stmt.placedIn, List.mem_append] at hp
        rcases hp with hp | hp
        · exact hcode
            (fun s hs => ihlate _ rfl s hs hslot hallowed) p hp
        · exact hcode
            (fun s hs => ih s hs hslot hallowed) p hp
  | fromConsensus _ ih =>
    rintro around hslot hallowed p (rfl | hp)
    · trivial
    · simp only [Stmt.placedIn] at hp
      exact hcode
        (fun s hs => ih s hs hslot hallowed) p hp
  | @loop _ _ loc init invariant cond body _ _ _ ihinvariant ihcond ih =>
    rintro around hslot _ p (rfl | hp)
    · trivial
    · obtain ⟨_, _, invariant, _⟩ := invariant
      obtain ⟨_, _, cond, _⟩ := cond
      simp only [Stmt.placedIn, List.mem_append] at hp
      rcases hp with (hp | hp) | hp
      · exact hcode
          (fun s hs => ihinvariant s hs (by simp) hnever) p hp
      · exact hcode
          (fun s hs => ihcond s hs (by simp) hnever) p hp
      · refine hcode
          (fun s hs => ih s hs (fun i hi => ?_) fun a ha => ?_) p hp
        · simpa using hslot i hi
        · exact .inr ⟨init, by simp, ha⟩

theorem Code.Jumps.lands (h : code.Jumps slot allowed) :
    ∀ p ∈ placed [] code, p.2.Lands slot allowed p.1 := by
  intro p hp
  obtain ⟨s, hs, hplace⟩ := mem_placed.1 hp
  exact (h s hs).lands (fun _ hi => .inl hi) (fun _ ha => .inl ha) p hplace

/-- The slot that a return goes to. -/
def Stmt.target? : Stmt → Option Nat
  | .ret _ slot _ => some slot
  | .letIn .. | .claim .. | .transfer .. | .stop .. | .prompt .. | .branch .. | .only ..
  | .toConsensus .. | .fromConsensus .. | .loop .. | .cont .. => none

/-- What a continue assigns. -/
def Stmt.assigns? : Stmt → Option Assignment
  | .cont _ a => some a
  | .letIn .. | .claim .. | .transfer .. | .stop .. | .ret .. | .prompt .. | .branch .. | .only ..
  | .toConsensus .. | .fromConsensus .. | .loop .. => none

/-- All returns in some code, at every depth: what stands around them, and the slot they go to. -/
def returns (code : Code) : List (List Enclosure × Nat) :=
  (placed [] code).filterMap fun p => p.2.target?.map fun slot => (p.1, slot)

/-- All continues in some code, at every depth: what stands around them, and what they assign. -/
def continues (code : Code) : List (List Enclosure × Assignment) :=
  (placed [] code).filterMap fun p => p.2.assigns?.map fun a => (p.1, a)

theorem Stmt.eq_ret_of_target? {i : Nat} (h : s.target? = some i) : ∃ loc v, s = .ret loc i v := by
  cases s <;> simp [Stmt.target?] at h
  rename_i loc slot v
  exact ⟨loc, v, by rw [h]⟩

theorem Stmt.eq_cont_of_assigns? {a : Assignment} (h : s.assigns? = some a) :
    ∃ loc, s = .cont loc a := by
  cases s <;> simp [Stmt.assigns?] at h
  rename_i loc assignment
  exact ⟨loc, by rw [h]⟩

theorem mem_returns {q : List Enclosure × Nat} (h : q ∈ returns code) :
    ∃ loc v, (q.1, Stmt.ret loc q.2 v) ∈ placed [] code := by
  obtain ⟨p, hp, hq⟩ := List.mem_filterMap.1 h
  obtain ⟨i, htarget, rfl⟩ := Option.map_eq_some_iff.1 hq
  obtain ⟨loc, v, hret⟩ := Stmt.eq_ret_of_target? htarget
  exact ⟨loc, v, by rwa [← hret]⟩

theorem mem_continues {q : List Enclosure × Assignment} (h : q ∈ continues code) :
    ∃ loc, (q.1, Stmt.cont loc q.2) ∈ placed [] code := by
  obtain ⟨p, hp, hq⟩ := List.mem_filterMap.1 h
  obtain ⟨a, hassigns, rfl⟩ := Option.map_eq_some_iff.1 hq
  obtain ⟨loc, hcont⟩ := Stmt.eq_cont_of_assigns? hassigns
  exact ⟨loc, by rwa [← hcont]⟩

/-- Every return goes to the outer slot, or it lies inside one prompt of its slot and no other; and
no two prompts have a slot in common. -/
structure Code.Delivers (outer : Option Nat) (code : Code) : Prop where
  caught : ∀ q ∈ returns code, outer = some q.2 ∨ (Enclosure.slots q.1).count q.2 = 1
  distinct : (slots code).Nodup

theorem Code.Jumps.delivers (h : code.Jumps slot allowed) (hslots : (slots code).Nodup) :
    code.Delivers slot := by
  refine ⟨fun q hq => ?_, hslots⟩
  obtain ⟨loc, v, hplaced⟩ := mem_returns hq
  refine (h.lands _ hplaced).imp_right fun hmem => ?_
  obtain ⟨new, haround, hsub⟩ := placed_encloses [] code _ hplaced
  have hnodup : (Enclosure.slots new).Nodup := List.nodup_reverse.1 (hslots.sublist hsub)
  obtain rfl : q.1 = new := by simpa using haround
  exact List.count_eq_one_of_mem hnodup hmem

end Ir

/-! ### Programs -/

/-- Returns are delivered by evaluation, whatever the context, the environment and the scope hold:
those of expressions and applications to prompts that are emitted with them, and those of statements
to such prompts or to the slot of the scope. In a program all of them lie inside prompts. -/
theorem evaluation_delivers_returns (fuel : Nat) :
    (∀ ctx env e s r s', (Elaboration.evalExpr fuel ctx env e).Yields s r s' →
      r.code.Delivers none) ∧
    (∀ ctx loc env rator args s r s',
      (Elaboration.applyValues fuel ctx loc env rator args).Yields s r s' → r.code.Delivers none) ∧
    (∀ ctx loc scope stmts s r s', (Elaboration.evalStmts fuel ctx loc scope stmts).Yields s r s' →
      r.code.Delivers scope.slot) ∧
    (∀ options session bundle top p,
      (compileBundle fuel options session bundle top).1 = .ok p → p.body.Delivers none) := by
  have hdelimits := evaluator_delimits fuel
  have howns := evaluator_owns fuel
  refine ⟨?_, ?_, ?_, ?_⟩
  · intro ctx env e s r s' hrun
    exact (hdelimits.expr hrun).delivers (howns.expr hrun).nodup
  · intro ctx loc env rator args s r s' hrun
    exact (hdelimits.composes.applyValues hrun).delivers (howns.composes.applyValues hrun).nodup
  · intro ctx loc scope stmts s r s' hrun
    exact (hdelimits.stmts hrun).code.delivers (howns.stmts hrun).nodup
  · intro options session bundle top p hcompile
    obtain ⟨_, _, _, _, _, r, _, hrun, hbody⟩ := compileBundle_evaluates hcompile
    rw [hbody]
    exact (hdelimits.stmts hrun).code.delivers (howns.stmts hrun).nodup

namespace Surface

/-- The participant publishes one of two numbers, by what its frontend answers. -/
def choosingApp : Bundle :=
  appOf ["A"] [
    .expr here (method (name "A") "only" [thunk [
      define "s" (method (name "interact") "getX" []),
      define "x" (apply "declassify" [.call here (thunk [
        .branch here (.binary here .lt (name "s") (number "10")) (.ret here (some (number "1")))
          (some (.ret here (some (number "2"))))]) []])]]),
    .expr here (method (name "A") "publish" [name "x"]),
    .expr here (apply "commit" []),
    .expr here (apply "exit" [])]

end Surface

theorem choosingApp_delivers_returns :
    ∃ p, (compileBundle 30 {} {} Surface.choosingApp "main").1 = .ok p ∧
      (returns p.body).length = 2 ∧ p.body.Delivers none := by
  obtain ⟨p, hp, hreturns⟩ := exists_ok_of_any
    (f := fun p : Program => (returns p.body).length == 2)
    (x := (compileBundle 30 {} {} Surface.choosingApp "main").1) (by decide +kernel)
  exact ⟨p, hp, by simpa using hreturns,
    (evaluation_delivers_returns 30).2.2.2 _ _ _ _ _ hp⟩

/-- Every continue of a program stands in the turn of a loop. It assigns pairwise different
variables of the innermost loop around it, and each of them a value of its type. -/
theorem compileBundle_continues_own_loop {fuel : Nat} {options : Options} {session : Session}
    {bundle : Bundle} {top : String} {p : Program}
    (hcompile : (compileBundle fuel options session bundle top).1 = .ok p) :
    ∀ q ∈ continues p.body, ∃ init, Enclosure.innermost? q.1 = some init ∧
      q.2.Updates (init.map (·.1)) ∧ ∀ i ∈ q.2, i.2.type = i.1.type := by
  intro q hq
  obtain ⟨loc, hplaced⟩ := mem_continues hq
  have hlands : ∃ init, Enclosure.innermost? q.1 = some init ∧ q.2.Updates (init.map (·.1)) := by
    obtain ⟨_, _, _, _, _, r, _, hrun, hbody⟩ := compileBundle_evaluates hcompile
    rw [hbody] at hplaced
    rcases ((evaluator_delimits fuel).stmts hrun).code.lands _ hplaced with hassigns | hloop
    · obtain ⟨_, _, hnone, _⟩ := hassigns
      cases hnone
    · exact hloop
  have htypes : ∀ i ∈ q.2, i.2.type = i.1.type := by
    obtain ⟨_, _, _, _, hemits⟩ := compileBundle_emits false hcompile (by simp)
    have hmem : Stmt.cont loc q.2 ∈ statements p.body := by
      rw [← placed_statements []]
      exact List.mem_map_of_mem hplaced
    obtain ⟨_, _, _, _, _, _, _, hstmt, _⟩ := hemits.formed.of_mem_statements _ hmem
    cases hstmt with
    | cont h => exact fun i hi => (h i hi).2.2
  obtain ⟨init, hinnermost, hupdates⟩ := hlands
  exact ⟨init, hinnermost, hupdates, htypes⟩

theorem countingApp_continues_own_loop :
    ∃ p, (compileBundle 30 {} {} Surface.countingApp "main").1 = .ok p ∧
      (continues p.body).length = 1 ∧
      ∀ q ∈ continues p.body, ∃ init, Enclosure.innermost? q.1 = some init ∧
        q.2.Updates (init.map (·.1)) ∧ ∀ i ∈ q.2, i.2.type = i.1.type := by
  obtain ⟨p, hp, hcontinues⟩ := exists_ok_of_any
    (f := fun p : Program => (continues p.body).length == 1)
    (x := (compileBundle 30 {} {} Surface.countingApp "main").1) (by decide +kernel)
  exact ⟨p, hp, by simpa using hcontinues, compileBundle_continues_own_loop hp⟩

end Choreography
