import Choreography.Proofs.Compilation

/-!
Programs are well scoped. Every variable that a program mentions is in scope where it is mentioned:
an earlier statement has left it, or a statement around has bound it.
-/

namespace Choreography

open Ir

/-- A variable occurs in a value, at any depth and also in what functions and forms hold. -/
inductive Value.Mentions (v : Var) : Value → Prop
  | var : Mentions v (.var v)
  | tuple {loc : Loc} {elems : List Value} {e : Value} (hmem : e ∈ elems) (h : Mentions v e) :
    Mentions v (.tuple loc elems)
  | object {loc : Loc} {fields : Bindings} {b : String × SecValue} (hmem : b ∈ fields.entries)
    (h : Mentions v b.2.value) : Mentions v (.object loc fields)
  | participant {tag : Tag} {p : Participant} (h : p.address = some v) :
    Mentions v (.participant tag p)
  | closure {tag : Tag} {c : Closure} {b : String × SecValue} (hmem : b ∈ c.env.entries)
    (h : Mentions v b.2.value) : Mentions v (.closure tag c)
  | transferTo {loc : Loc} {tag : Tag} {amount : Arg} (h : .var v ∈ amount.atoms true) :
    Mentions v (.prim loc (.transferTo tag amount))
  | app {loc : Loc} {tag : Tag} {a : App} {b : String × SecValue} (hmem : b ∈ a.env.entries)
    (h : Mentions v b.2.value) : Mentions v (.prim loc (.app tag a))
  | view {loc : Loc} {tag : Tag} {who : String} {view : Bindings} {result : SecValue}
    {b : String × SecValue} (hmem : b ∈ view.entries) (h : Mentions v b.2.value) :
    Mentions v (.form loc tag (.onlyDone who view result))
  | result {loc : Loc} {tag : Tag} {who : String} {view : Bindings} {result : SecValue}
    (h : Mentions v result.value) : Mentions v (.form loc tag (.onlyDone who view result))

/-- A formed value mentions what is in scope. -/
theorem Value.Mentions.mem {R : Regime} {X : List Known} {v : Var} {value : Value}
    (h : value.Mentions v) :
    ∀ {level : Level}, value.Formed R X level → v ∈ X.map (·.value) := by
  -- the reserved binding holds a primitive, which mentions nothing
  have hbinding : ∀ {b : String × SecValue}, b.2.value.Mentions v → ¬ Reserved b := by
    rintro b hb ⟨_, hvalue⟩
    rw [hvalue] at hb
    cases hb
  induction h with
  | var =>
    intro level hformed
    cases hformed with
    | var hsees =>
      obtain ⟨k, hk, _⟩ := hsees
      exact List.mem_map_of_mem hk
  | tuple hmem _ ih =>
    intro level hformed
    cases hformed with
    | tuple helems => exact ih (helems _ hmem)
  | object hmem _ ih =>
    intro level hformed
    cases hformed with
    | object _ hfields => exact ih (hfields _ hmem)
  | participant haddress =>
    intro level hformed
    cases hformed with
    | participant hjoined =>
      obtain ⟨⟨k, hk, _⟩, _⟩ := hjoined v haddress
      exact List.mem_map_of_mem hk
  | closure hmem hb ih =>
    intro level hformed
    cases hformed with
    | closure _ henv => exact ih (henv _ hmem (hbinding hb))
  | transferTo hatom =>
    intro level hformed
    cases hformed with
    | prim hprim =>
      cases hprim.1.atom.2 _ hatom with
      | var hsees =>
        obtain ⟨k, hk, _⟩ := hsees
        exact List.mem_map_of_mem hk
  | app hmem hb ih =>
    intro level hformed
    cases hformed with
    | prim hprim => exact hprim.elim
    | app _ _ henv => exact ih (henv _ hmem (hbinding hb))
  | view hmem hb ih =>
    intro level hformed
    cases hformed with
    | onlyDone hview => exact ih (hview _ hmem (hbinding hb))
  | result _ ih =>
    intro level hformed
    cases hformed with
    | onlyDone _ hresult => exact ih hresult

namespace Ir

/-- All variables that the operands mention, at any depth, are in scope. -/
def Within (X : List Var) (args : List Arg) : Prop :=
  ∀ a ∈ args, ∀ v, .var v ∈ a.atoms true → v ∈ X

/-- The address that a participant is about to join with. -/
def joiningAddress (who : String) : Option Stmt → List Var
  | some (.toConsensus _ t) => if t.join && t.who == who then [t.whoVar] else []
  | _ => []

mutual

/-- All that a statement mentions is in scope, at every depth. Messages and the sender's address are
bound in the body of a round, and the variables of a loop in the loop; private code before a round
may already mention the address that its participant joins with. -/
def Stmt.Scoped (X : List Var) (next : Option Stmt) : Stmt → Prop
  | .letIn _ _ e => Within X e.operands
  | .claim _ _ _ a => Within X [a]
  | .transfer _ _ recipient amount => Within X [recipient, amount]
  | .stop .. | .ret _ _ none => True
  | .ret _ _ (some value) => ∀ v, value.Mentions v → v ∈ X
  | .prompt _ _ _ body | .fromConsensus _ body => codeScoped X body
  | .branch _ cond onTrue onFalse =>
    Within X [cond] ∧ codeScoped X onTrue ∧ codeScoped X onFalse
  | .only _ who body => codeScoped (X ++ joiningAddress who next) body
  | .toConsensus _ ⟨_, join, whoVar, messages, amount, none, body⟩ =>
    (join = false → whoVar ∈ X) ∧ Within X (messages.map (·.1)) ∧ Within X [amount] ∧
      codeScoped (X ++ (messages.map (·.2) ++ [whoVar])) body
  | .toConsensus _ ⟨_, join, whoVar, messages, amount, some ⟨delay, late⟩, body⟩ =>
    (join = false → whoVar ∈ X) ∧ Within X (messages.map (·.1)) ∧ Within X [amount] ∧
      Within X [delay] ∧ codeScoped X late ∧
      codeScoped (X ++ (messages.map (·.2) ++ [whoVar])) body
  | .loop _ init ⟨_, _, invariant, invariantResult⟩ ⟨_, _, cond, condResult⟩ body =>
    Within X (init.map (·.2)) ∧
      (codeScoped (X ++ init.map (·.1)) invariant ∧
        Within (X ++ init.map (·.1) ++ codeLeaves false invariant) [invariantResult]) ∧
      (codeScoped (X ++ init.map (·.1)) cond ∧
        Within (X ++ init.map (·.1) ++ codeLeaves false cond) [condResult]) ∧
      codeScoped (X ++ init.map (·.1)) body
  | .cont _ assignment =>
    Within X (assignment.map (·.2)) ∧ ∀ i ∈ assignment, i.1 ∈ X

/-- Every statement is scoped, where all before it has left its variables. -/
def codeScoped (X : List Var) : List Stmt → Prop
  | [] => True
  | s :: rest => s.Scoped X rest.head? ∧ codeScoped (X ++ s.leaves false) rest

end

variable {R : Regime} {J : List (String × Var)} {X : List Known} {Y : List Var} {E : List Return}
  {K O B : List Known} {next : Option Stmt} {s : Stmt} {parts : List Part} {code : Code}

/-! ### Operands and values -/

theorem Arg.Formed.within {level : Level} {a : Arg} (h : a.Formed R X level)
    (hY : X.map (·.value) ⊆ Y) : Within Y [a] := by
  intro a' ha' v hv
  obtain rfl := List.mem_singleton.1 ha'
  cases h.atom.2 _ hv with
  | var hsees =>
    obtain ⟨k, hk, _⟩ := hsees
    exact hY (List.mem_map_of_mem hk)

theorem within_of_forall {args : List Arg} (h : ∀ a ∈ args, Within Y [a]) : Within Y args :=
  fun a ha => h a ha a List.mem_cons_self

theorem within_map {α : Type} {xs : List α} {f : α → Arg} (h : ∀ x ∈ xs, Within Y [f x]) :
    Within Y (xs.map f) :=
  within_of_forall (List.forall_mem_map.2 h)

/-! ### Statements -/

theorem Transition.learned_subset (t : Transition) :
    t.learned.map (·.value) ⊆ t.messages.map (·.2) ++ [t.whoVar] := by
  intro v hv
  obtain ⟨k, hk, rfl⟩ := List.mem_map.1 hv
  rcases List.mem_append.1 hk with hmessage | hjoin
  · obtain ⟨m, hm, rfl⟩ := List.mem_map.1 hmessage
    exact List.mem_append_left _ (List.mem_map_of_mem hm)
  · split at hjoin
    · obtain rfl := List.mem_singleton.1 hjoin
      exact List.mem_append_right _ List.mem_cons_self
    · simp at hjoin

theorem map_value_append_subset {Z : List Var} (hY : X.map (·.value) ⊆ Y)
    (hK : K.map (·.value) ⊆ Z) : (X ++ K).map (·.value) ⊆ Y ++ Z := by
  rw [List.map_append]
  exact List.append_subset_of_subset_of_subset (List.Subset.trans hY (List.subset_append_left _ _))
    (List.Subset.trans hK (List.subset_append_right _ _))

theorem map_value_subset {p : Part} (hfits : p.Fits J X) (hY : X.map (·.value) ⊆ Y) :
    p.known.map (·.value) ⊆ Y :=
  List.Subset.trans (List.map_subset _ hfits.2) hY

/-- A formed statement is scoped, when the code inside it is. -/
theorem Stmt.Formed.scoped (h : s.Formed R J X next parts E K B) (hY : X.map (·.value) ⊆ Y)
    (hleft : ∀ p ∈ parts, ∀ k ∈ p.exports, k.value ∈ codeLeaves false p.code)
    (hparts : ∀ p ∈ parts, ∀ Y, p.known.map (·.value) ⊆ Y → codeScoped Y p.code) :
    s.Scoped Y next := by
  cases h with
  | letIn h => exact within_of_forall fun a ha => (h.operands a ha).within hY
  | claim h => exact h.within hY
  | transfer hrecipient _ hamount =>
    refine within_of_forall ?_
    simpa using ⟨hrecipient.within hY, hamount.within hY⟩
  | stop => trivial
  | ret h => exact fun v hv => hY (hv.mem h)
  | prompt hfits => exact hparts _ (by simp) _ (map_value_subset hfits hY)
  | fromConsensus hfits => exact hparts _ (by simp) _ (map_value_subset hfits hY)
  | branch hcond _ ht hf =>
    exact ⟨hcond.within hY, hparts _ (by simp) _ (map_value_subset ht hY),
      hparts _ (by simp) _ (map_value_subset hf hY)⟩
  | only hfits _ hahead =>
    refine hparts _ (by simp) _ (map_value_subset hfits (map_value_append_subset hY ?_))
    intro v hv
    obtain ⟨k, hk, rfl⟩ := List.mem_map.1 hv
    obtain ⟨loc, t, rfl, hwho, hjoin, rfl⟩ := hahead k hk
    simp [joiningAddress, hwho, hjoin, Labelled.pub]
  | @toConsensus _ t late body _ hjoined hmessages hamount _ hlate htimeout hfits hbody =>
    have hsender : t.join = false → t.whoVar ∈ Y := by
      intro hold
      obtain ⟨k, hk, _⟩ := (hjoined hold).2
      exact hY (List.mem_map_of_mem hk)
    have hsent : Within Y (t.messages.map (·.1)) :=
      within_map fun m hm => (hmessages m hm).1.within hY
    have hinside := hparts body (by simp) _
      (map_value_subset hfits (map_value_append_subset hY t.learned_subset))
    obtain ⟨who, join, whoVar, messages, amount, timeout, code⟩ := t
    simp only at htimeout hbody
    subst htimeout hbody
    cases late with
    | none => exact ⟨hsender, hsent, hamount.within hY, hinside⟩
    | some l =>
      obtain ⟨hdelay, _, hhandler⟩ := hlate l rfl
      exact ⟨hsender, hsent, hamount.within hY, hdelay.within hY,
        hparts l.2 (by simp) _ (map_value_subset hhandler hY), hinside⟩
  | @loop _ init _ _ _ _ invariant cond body _ _ hinit hinvariant _ hinvariantResult _ hcond _
      hcondResult _ hbody =>
    have hvars : (X ++ init.map fun i => Labelled.pub i.1).map (·.value) ⊆ Y ++ init.map (·.1) :=
      map_value_append_subset hY (by rw [List.map_map]; exact List.Subset.refl _)
    have hblock : ∀ p ∈ [invariant, cond, body],
        p.exports.map (·.value) ⊆ codeLeaves false p.code := by
      intro p hp v hv
      obtain ⟨k, hk, rfl⟩ := List.mem_map.1 hv
      exact hleft p hp k hk
    refine ⟨within_map fun i hi => (hinit i hi).1.within hY, ⟨?_, ?_⟩, ⟨?_, ?_⟩, ?_⟩
    · exact hparts invariant (by simp) _ (map_value_subset hinvariant hvars)
    · exact hinvariantResult.within (map_value_append_subset hvars (hblock invariant (by simp)))
    · exact hparts cond (by simp) _ (map_value_subset hcond hvars)
    · exact hcondResult.within (map_value_append_subset hvars (hblock cond (by simp)))
    · exact hparts body (by simp) _ (map_value_subset hbody hvars)
  | cont h =>
    refine ⟨within_map fun i hi => (h i hi).2.1.within hY, fun i hi => ?_⟩
    obtain ⟨k, hk, _⟩ := (h i hi).1
    exact hY (List.mem_map_of_mem hk)

/-- Formed code is scoped wherever all that it is formed from is in scope. -/
theorem Code.Formed.scoped (h : Code.Formed R J X code E O B) :
    ∀ Y, X.map (·.value) ⊆ Y → codeScoped Y code := by
  induction h with
  | nil => exact fun _ _ => trivial
  | @cons J X s parts E E' K O B B' rest hstmt hparts _ ihparts ih =>
    intro Y hY
    have hleft : ∀ p ∈ parts, ∀ k ∈ p.exports, k ∈ p.binders ∧ k.value ∈ codeLeaves false p.code :=
      fun p hp => (hparts p hp).exports_left
    have hstays : K.map (·.value) ⊆ s.leaves false := by
      intro v hv
      obtain ⟨k, hk, rfl⟩ := List.mem_map.1 hv
      exact (hstmt.exports_left hleft k hk).2
    exact ⟨hstmt.scoped hY (fun p hp k hk => (hleft p hp k hk).2) ihparts,
      ih _ (map_value_append_subset hY hstays)⟩

end Ir

namespace Ir

/-- All variables that the operands mention are among the numbers. -/
def within (ids : List Nat) (args : List Arg) : Bool :=
  args.all fun a => (a.atoms true).all fun
    | .var v => ids.contains v.id
    | _ => true

/-- The numbers that a statement binds for those after it. -/
def Stmt.binds : Stmt → List Nat
  | .letIn _ v _ => [v.id]
  | .prompt _ _ result _ => result.toList.map (·.id)
  | .loop _ init _ _ _ => init.map (·.1.id)
  | _ => []

/-- What private code binds at any depth, with the participants whose code it is. -/
def Stmt.privates (s : Stmt) : List (String × Nat) :=
  (s :: s.inner).flatMap fun
    | .only _ who body => (definitions body).map (who, ·)
    | _ => []

/-- The private variables of one participant. -/
def ownedBy (who : String) (owned : List (String × Nat)) : List Nat :=
  (owned.filter (·.1 == who)).map (·.2)

mutual

/-- The stricter rule: private variables are mentioned in private code of their owner and in what
the owner sends, and nothing that a function binds is mentioned outside its prompt. -/
def Stmt.keepsPrivate (ids : List Nat) (owned : List (String × Nat)) : Stmt → Bool
  | .prompt _ _ _ body | .fromConsensus _ body => codeKeepsPrivate ids owned body
  | .branch _ cond onTrue onFalse =>
    within ids [cond] && codeKeepsPrivate ids owned onTrue && codeKeepsPrivate ids owned onFalse
  | .only _ who body => codeKeepsPrivate (ids ++ ownedBy who owned) owned body
  | .toConsensus _ ⟨who, join, whoVar, messages, amount, none, body⟩ =>
    (join || ids.contains whoVar.id) &&
      within (ids ++ ownedBy who owned) (messages.map (·.1) ++ [amount]) &&
      codeKeepsPrivate (ids ++ (messages.map (·.2.id) ++ [whoVar.id])) owned body
  | .toConsensus _ ⟨who, join, whoVar, messages, amount, some ⟨delay, late⟩, body⟩ =>
    (join || ids.contains whoVar.id) &&
      within (ids ++ ownedBy who owned) (messages.map (·.1) ++ [amount]) && within ids [delay] &&
      codeKeepsPrivate ids owned late &&
      codeKeepsPrivate (ids ++ (messages.map (·.2.id) ++ [whoVar.id])) owned body
  | .loop _ init ⟨_, _, invariant, invariantResult⟩ ⟨_, _, cond, condResult⟩ body =>
    let inside := ids ++ init.map (·.1.id)
    within ids (init.map (·.2)) && codeKeepsPrivate inside owned invariant &&
      within (inside ++ invariant.flatMap Stmt.binds) [invariantResult] &&
      codeKeepsPrivate inside owned cond &&
      within (inside ++ cond.flatMap Stmt.binds) [condResult] && codeKeepsPrivate inside owned body
  | s => within ids s.operands

def codeKeepsPrivate (ids : List Nat) (owned : List (String × Nat)) : List Stmt → Bool
  | [] => true
  | s :: rest =>
    s.keepsPrivate ids owned && codeKeepsPrivate (ids ++ s.binds) (owned ++ s.privates) rest

end

end Ir

namespace Surface

/-- The function is called in consensus, and what it returns is bound only after it has left
consensus. -/
def escapingApp : Bundle :=
  appOf ["A"] [
    .expr here (method (name "A") "publish" []),
    define "f" (thunk [.expr here (apply "commit" []), define "y" (apply "balance" []),
      .ret here (some (name "y"))]),
    .expr here (method (apply "transfer" [apply "f" []]) "to" [name "A"])]

/-- Private code of one participant is evaluated as a part of what another one pays. -/
def strayApp : Bundle :=
  appOf ["A", "B"] [
    .expr here (method (name "A") "only" [thunk [
      define "x" (method (name "interact") "getX" [])]]),
    .expr here (method (name "B") "pay" [apply "declassify" [.index here (.array here [number "0",
      method (name "A") "only" [thunk [
        define "y" (.binary here .plus (name "x") (number "1"))]]]) (number "0")]])]

/-- What a participant pays is computed from the address that it joins with. -/
def addressApp : Bundle :=
  appOf ["A"] [
    .expr here (method (name "A") "pay" [apply "declassify" [apply "digest" [name "A"]]])]

end Surface

/-- The program compiles, and mentions a variable where the stricter rule has it no longer, or not
yet, in scope. -/
def ScopeEscapes (bundle : Bundle) : Prop :=
  ∃ p, (compileBundle 30 {} {} bundle "main").1 = .ok p ∧ codeKeepsPrivate [] [] p.body = false

theorem scopeEscapes_of_any {bundle : Bundle}
    (h : (compileBundle 30 {} {} bundle "main").1.toOption.any
      (fun p => !codeKeepsPrivate [] [] p.body) = true) : ScopeEscapes bundle := by
  obtain ⟨p, hp, hnot⟩ := exists_ok_of_any h
  exact ⟨p, hp, by simpa using hnot⟩

end Choreography
