import Choreography.Proofs.Modes

/-!
How participants come onto the ledger. On every path through a program, a round that does not join
its sender comes after a round of the same sender that did, and whose body the path has entered; and
behind the commit of a round its sender never joins again.

Two joins of one participant can stand on one path all the same: a round that times out was not
taken, and a path goes on behind a branch that has left the program.
-/

namespace Choreography

open Eval Ir

theorem OrderedMap.get?_insertNew_self {κ α : Type} [DecidableEq κ] [LT κ] [DecidableLT κ]
    {m : OrderedMap κ α} {k : κ} {a : α} (h : ∀ b, m.get? k = some b → b = a) :
    (m.insertNew k a).get? k = some a := by
  unfold OrderedMap.insertNew
  split
  · rename_i b hb
    rw [hb, h b hb]
  · exact OrderedMap.get?_insert_self m k a

theorem OrderedMap.get?_insertNew_eq_some {κ α : Type} [DecidableEq κ] [LT κ] [DecidableLT κ]
    {m : OrderedMap κ α} {k k' : κ} {a b : α} (h : (m.insertNew k a).get? k' = some b) :
    m.get? k' = some b ∨ k' = k ∧ b = a ∧ m.get? k = none := by
  unfold OrderedMap.insertNew at h
  split at h
  · exact .inl h
  · rename_i hnone
    by_cases hkey : k' = k
    · subst hkey
      rw [OrderedMap.get?_insert_self] at h
      exact .inr ⟨rfl, (Option.some.inj h).symm, hnone⟩
    · rw [OrderedMap.get?_insert_of_ne hkey] at h
      exact .inl h

/-- Those on the ledger during a phase. -/
def Phase.joined : Phase → NameMap Var
  | .privately => {}
  | .step J | .consensus J => J

/-- Everyone on the ledger is still there, with the same address. -/
def Phase.Extends (φ ψ : Phase) : Prop :=
  ∀ who v, φ.joined.get? who = some v → ψ.joined.get? who = some v

theorem Phase.Extends.refl {φ : Phase} : φ.Extends φ := fun _ _ h => h

namespace Ir

/-! ### Paths -/

/-- A round on a path: its sender, whether it joins and under which number, and whether the path
goes on in the round, or with its timeout. -/
structure Visit where
  who : String
  join : Bool
  address : Nat
  taken : Bool
  deriving DecidableEq

mutual

/-- The paths through a statement, each with the rounds that it meets. A path takes one branch, goes
into prompts and behind commits, and into a round or its timeout. -/
def Stmt.paths : Stmt → List (List Visit)
  | .prompt _ _ _ body | .fromConsensus _ body => codePaths body
  | .branch _ _ onTrue onFalse => codePaths onTrue ++ codePaths onFalse
  | .toConsensus _ ⟨who, join, whoVar, _, _, none, body⟩ =>
    (codePaths body).map (⟨who, join, whoVar.id, true⟩ :: ·)
  | .toConsensus _ ⟨who, join, whoVar, _, _, some ⟨_, late⟩, body⟩ =>
    (codePaths late).map (⟨who, join, whoVar.id, false⟩ :: ·) ++
      (codePaths body).map (⟨who, join, whoVar.id, true⟩ :: ·)
  | .letIn .. | .claim .. | .transfer .. | .stop .. | .ret .. | .only .. | .loop ..
  | .cont .. => [[]]

/-- The paths through some code, from its first statement to its last. -/
def codePaths : List Stmt → List (List Visit)
  | [] => [[]]
  | s :: rest => s.paths.flatMap fun first => (codePaths rest).map (first ++ ·)

end

theorem mem_codePaths_cons {s : Stmt} {rest : Code} {path : List Visit} :
    path ∈ codePaths (s :: rest) ↔ ∃ p ∈ s.paths, ∃ q ∈ codePaths rest, path = p ++ q := by
  simp [codePaths, eq_comm]

theorem mem_codePaths_append {code code' : Code} {path : List Visit}
    (h : path ∈ codePaths (code ++ code')) :
    ∃ p ∈ codePaths code, ∃ q ∈ codePaths code', path = p ++ q := by
  induction code generalizing path with
  | nil => exact ⟨[], by simp [codePaths], path, h, rfl⟩
  | cons s rest ih =>
    obtain ⟨p, hp, q, hq, rfl⟩ := mem_codePaths_cons.1 h
    obtain ⟨q₁, hq₁, q₂, hq₂, rfl⟩ := ih hq
    exact ⟨p ++ q₁, mem_codePaths_cons.2 ⟨p, hp, q₁, hq₁, rfl⟩, q₂, hq₂,
      (List.append_assoc p q₁ q₂).symm⟩

/-- A path through a round enters its timeout or its body. -/
theorem mem_paths_toConsensus {loc : Loc} {t : Transition} {path : List Visit}
    (h : path ∈ (Stmt.toConsensus loc t).paths) :
    ∃ taken inner, path = ⟨t.who, t.join, t.whoVar.id, taken⟩ :: inner ∧
      ((taken = false ∧ ∃ d, t.timeout = some d ∧ inner ∈ codePaths d.body) ∨
        taken = true ∧ inner ∈ codePaths t.body) := by
  obtain ⟨who, join, whoVar, messages, amount, timeout, body⟩ := t
  cases timeout with
  | none =>
    simp only [Stmt.paths, List.mem_map] at h
    obtain ⟨inner, hinner, rfl⟩ := h
    exact ⟨true, inner, rfl, .inr ⟨rfl, hinner⟩⟩
  | some d =>
    obtain ⟨delay, late⟩ := d
    simp only [Stmt.paths, List.mem_append, List.mem_map] at h
    rcases h with ⟨inner, hinner, rfl⟩ | ⟨inner, hinner, rfl⟩
    · exact ⟨false, inner, rfl, .inl ⟨rfl, _, rfl, hinner⟩⟩
    · exact ⟨true, inner, rfl, .inr ⟨rfl, hinner⟩⟩

/-- The sender and the number of its address, when the path takes a round that joins it. -/
def Visit.joins (v : Visit) (who : String) (address : Nat) : Prop :=
  v = ⟨who, true, address, true⟩

/-- Every round on the path that does not join its sender finds it on the ledger: from before the
path, where `onLedger` says who is there, or by a round that the path has taken. -/
def Backed (onLedger : String → Nat → Prop) : List Visit → Prop
  | [] => True
  | v :: rest =>
    (v.join = false → onLedger v.who v.address) ∧
      Backed (fun who address => onLedger who address ∨ v.joins who address) rest

variable {onLedger onLedger' : String → Nat → Prop} {path path' : List Visit}

theorem Backed.mono (h : Backed onLedger path)
    (hsub : ∀ who address, onLedger who address → onLedger' who address) :
    Backed onLedger' path := by
  induction path generalizing onLedger onLedger' with
  | nil => exact trivial
  | cons v rest ih =>
    refine ⟨fun hagain => hsub _ _ (h.1 hagain), ih h.2 fun who address => ?_⟩
    exact Or.imp_left (hsub who address)

theorem Backed.append (h : Backed onLedger path) (h' : Backed onLedger path') :
    Backed onLedger (path ++ path') := by
  induction path generalizing onLedger with
  | nil => exact h'
  | cons v rest ih => exact ⟨h.1, ih h.2 (h'.mono fun _ _ => .inl)⟩

theorem Backed.joined_before (h : Backed onLedger path) {before after : List Visit} {v : Visit}
    (hsplit : path = before ++ v :: after) (hagain : v.join = false) :
    onLedger v.who v.address ∨ ⟨v.who, true, v.address, true⟩ ∈ before := by
  induction before generalizing onLedger path with
  | nil =>
    rw [hsplit] at h
    exact .inl (h.1 hagain)
  | cons w before ih =>
    rw [hsplit] at h
    rcases ih h.2 rfl with (hknown | hjoins) | hmem
    · exact .inl hknown
    · exact .inr (List.mem_cons.2 (.inl hjoins.symm))
    · exact .inr (List.mem_cons_of_mem w hmem)

/-- The addresses of those on the ledger during a phase. -/
def OnLedger (J : NameMap Var) (who : String) (address : Nat) : Prop :=
  ∃ v, J.get? who = some v ∧ v.id = address

/-- On a path into a round the sender was on the ledger, or it is there now. -/
theorem Backed.enter {J : NameMap Var} {who : String} {join : Bool} {whoVar : Var}
    (hagain : join = false → J.get? who = some whoVar) (h : Backed (OnLedger J) path)
    (h' : Backed (OnLedger (J.insertNew who whoVar)) path') :
    Backed (OnLedger J) (⟨who, join, whoVar.id, true⟩ :: (path ++ path')) := by
  refine ⟨fun hold => ⟨whoVar, hagain hold, rfl⟩, (h.mono fun _ _ => .inl).append (h'.mono ?_)⟩
  rintro other address ⟨v, hget, rfl⟩
  rcases OrderedMap.get?_insertNew_eq_some hget with hold | ⟨rfl, rfl, hnone⟩
  · exact .inl ⟨v, hold, rfl⟩
  · have hjoin : join = true := by
      by_contra hnot
      simp [hagain (by simpa using hnot)] at hnone
    exact .inr (by rw [Visit.joins, hjoin])

variable {φ : Phase} {s : Stmt} {code : Code}

theorem backed_codePaths (h : ∀ s ∈ code, ∀ path ∈ s.paths, Backed onLedger path) :
    ∀ path ∈ codePaths code, Backed onLedger path := by
  induction code with
  | nil =>
    intro path hpath
    simp only [codePaths, List.mem_singleton] at hpath
    rw [hpath]
    exact trivial
  | cons s rest ih =>
    obtain ⟨hfirst, hrest⟩ := List.forall_mem_cons.1 h
    intro path hpath
    obtain ⟨p, hp, q, hq, rfl⟩ := mem_codePaths_cons.1 hpath
    exact (hfirst p hp).append (ih hrest q hq)

theorem Stmt.During.backed (h : s.During φ) :
    ∀ path ∈ s.paths, Backed (OnLedger φ.joined) path := by
  have hnone : ∀ {J : NameMap Var}, ∀ path ∈ [[]], Backed (OnLedger J) path := by
    intro J path hpath
    rw [List.mem_singleton.1 hpath]
    exact trivial
  induction h with
  | prompt _ ih | fromConsensus _ ih =>
    simp only [Stmt.paths]
    exact backed_codePaths ih
  | branch _ _ iht ihf =>
    simp only [Stmt.paths, List.mem_append]
    rintro path (hpath | hpath)
    · exact backed_codePaths iht path hpath
    · exact backed_codePaths ihf path hpath
  | @toConsensus J loc t check next _ hagain _ hbody _ _ ihlate ihcheck ihnext =>
    intro path hpath
    obtain ⟨taken, inner, rfl, ⟨rfl, d, hd, hinner⟩ | ⟨rfl, hinner⟩⟩ := mem_paths_toConsensus hpath
    · refine ⟨fun hold => ⟨t.whoVar, hagain hold, rfl⟩, ?_⟩
      exact (backed_codePaths (ihlate d hd) inner hinner).mono fun _ _ => .inl
    · rw [hbody] at hinner
      obtain ⟨p, hp, q, hq, rfl⟩ := mem_codePaths_append hinner
      exact .enter hagain (backed_codePaths ihcheck p hp) (backed_codePaths ihnext q hq)
  | _ =>
    simp only [Stmt.paths]
    exact hnone

/-! ### Behind a commit -/

/-- No statement inside another one forgets who is on the ledger. -/
theorem Stmt.During.inner (h : s.During φ) : ∀ t ∈ s.inner, ∃ ψ, t.During ψ ∧ φ.Extends ψ := by
  have hcode : ∀ {φ ψ : Phase} {code : Code}, φ.Extends ψ → (∀ s ∈ code, s.During ψ) →
      (∀ s ∈ code, ∀ t ∈ s.inner, ∃ χ, t.During χ ∧ ψ.Extends χ) →
      ∀ t ∈ statements code, ∃ χ, t.During χ ∧ φ.Extends χ := by
    intro φ ψ code hext hall hinner t ht
    obtain ⟨s, hs, rfl | hin⟩ := mem_statements.1 ht
    · exact ⟨ψ, hall _ hs, hext⟩
    · obtain ⟨χ, hduring, hnext⟩ := hinner s hs t hin
      exact ⟨χ, hduring, fun who v hget => hnext who v (hext who v hget)⟩
  induction h with
  | prompt hbody ih | only hbody ih =>
    simp only [Stmt.inner]
    exact hcode .refl hbody ih
  | @fromConsensus J _ _ hbody ih =>
    have hext : (Phase.consensus J).Extends (.step J) := fun _ _ hget => hget
    simp only [Stmt.inner]
    exact hcode hext hbody ih
  | branch ht hf iht ihf =>
    simp only [Stmt.inner, List.mem_append, or_imp, forall_and]
    exact ⟨hcode .refl ht iht, hcode .refl hf ihf⟩
  | loop hinvariant hcond hbody ihi ihc ihb =>
    rename_i invariant cond _
    obtain ⟨_, _, invariant, _⟩ := invariant
    obtain ⟨_, _, cond, _⟩ := cond
    simp only [Stmt.inner, List.mem_append, or_imp, forall_and]
    exact ⟨⟨hcode .refl hinvariant ihi, hcode .refl hcond ihc⟩, hcode .refl hbody ihb⟩
  | @toConsensus J loc t check next _ _ hlate hbody hcheck hnext ihlate ihcheck ihnext =>
    obtain ⟨who, join, whoVar, messages, amount, timeout, body⟩ := t
    simp only at hbody hnext ihnext
    subst hbody
    have hround : ∀ t ∈ statements (check ++ next),
        ∃ ψ, t.During ψ ∧ (Phase.step J).Extends ψ := by
      simp only [statements_append, List.mem_append, or_imp, forall_and]
      refine ⟨hcode .refl hcheck ihcheck, hcode ?_ hnext ihnext⟩
      exact fun _ _ hget => OrderedMap.get?_insertNew_of_some hget
    cases timeout with
    | none =>
      simp only [Stmt.inner]
      exact hround
    | some d =>
      obtain ⟨delay, late⟩ := d
      simp only [Stmt.inner, List.mem_append, or_imp, forall_and]
      exact ⟨hcode .refl (hlate _ rfl) (ihlate _ rfl), hround⟩
  | _ => simp [Stmt.inner]

theorem Code.During.statements (h : code.During φ) :
    ∀ s ∈ Ir.statements code, ∃ ψ, s.During ψ ∧ φ.Extends ψ := by
  intro s hs
  obtain ⟨t, ht, rfl | hin⟩ := mem_statements.1 hs
  · exact ⟨φ, h _ ht, .refl⟩
  · exact (h t ht).inner s hin

/-- Behind the commit of a round its sender is on the ledger, with the address of the round. -/
theorem Stmt.During.joined_behind_commit {loc commitLoc : Loc} {t : Transition} {behind : Code}
    (h : (Stmt.toConsensus loc t).During φ)
    (hcommit : .fromConsensus commitLoc behind ∈ ownStatements t.body) :
    ∃ J, behind.During (.step J) ∧ J.get? t.who = some t.whoVar := by
  cases h with
  | @toConsensus J _ _ check next hjoin hagain _ hbody hcheck hnext =>
    obtain ⟨s, hs, hmem⟩ := mem_ownStatements.1 hcommit
    rw [hbody] at hs
    rcases List.mem_append.1 hs with hcheckMem | hnextMem
    · -- the check of the amount is computed before the round, where nothing is committed
      have hduring : (Stmt.fromConsensus commitLoc behind).During (.step J) :=
        Code.During.own hcheck _ (mem_ownStatements.2 ⟨s, hcheckMem, hmem⟩)
      cases hduring
    · have hduring : (Stmt.fromConsensus commitLoc behind).During
          (.consensus (J.insertNew t.who t.whoVar)) :=
        Code.During.own hnext _ (mem_ownStatements.2 ⟨s, hnextMem, hmem⟩)
      cases hduring with
      | fromConsensus hbehind =>
        refine ⟨_, hbehind, OrderedMap.get?_insertNew_self fun v hget => ?_⟩
        cases hnew : t.join with
        | true => simp [hjoin hnew] at hget
        | false =>
          rw [hagain hnew] at hget
          exact (Option.some.inj hget).symm

theorem Stmt.During.keeps_address {J : NameMap Var} {loc : Loc} {t : Transition} {v : Var}
    (h : (Stmt.toConsensus loc t).During φ) (hext : (Phase.step J).Extends φ)
    (hget : J.get? t.who = some v) : t.join = false ∧ t.whoVar = v := by
  cases h with
  | toConsensus hjoin hagain =>
    have hknown := hext t.who v hget
    simp only [Phase.joined] at hknown
    cases hnew : t.join with
    | true => simp [hjoin hnew] at hknown
    | false =>
      rw [hagain hnew] at hknown
      exact ⟨rfl, Option.some.inj hknown⟩

end Ir

/-! ### Programs -/

variable {fuel : Nat} {options : Options} {session : Session} {bundle : Bundle} {top : String}
  {p : Program}

/-- The body of a program is emitted between rounds, with no one on the ledger yet. -/
theorem compileBundle_during
    (hcompile : (compileBundle fuel options session bundle top).1 = .ok p) :
    p.body.During (.step {}) := by
  obtain ⟨_, _, _, _, _, r, _, hr, hbody⟩ := compileBundle_evaluates hcompile
  rw [hbody]
  exact (evaluator_phased fuel).stmts hr

/-- On every path, a round that does not join its sender comes after a round that the path has taken
and that joined the same sender under the same number. Behind the commit of a round no round joins
its sender again; all of them use the address of the round. -/
theorem compileBundle_joins_once
    (hcompile : (compileBundle fuel options session bundle top).1 = .ok p) :
    (∀ path ∈ codePaths p.body, ∀ before v after, path = before ++ v :: after → v.join = false →
      ⟨v.who, true, v.address, true⟩ ∈ before) ∧
    ∀ loc t commitLoc behind, .toConsensus loc t ∈ statements p.body →
      .fromConsensus commitLoc behind ∈ ownStatements t.body →
      ∀ laterLoc later, .toConsensus laterLoc later ∈ statements behind → later.who = t.who →
        later.join = false ∧ later.whoVar = t.whoVar := by
  have hduring := compileBundle_during hcompile
  constructor
  · intro path hpath before v after hsplit hagain
    have hbacked := backed_codePaths (fun s hs => (hduring s hs).backed) path hpath
    rcases hbacked.joined_before hsplit hagain with ⟨x, hget, _⟩ | hmem
    · cases hget
    · exact hmem
  · intro loc t commitLoc behind hround hcommit laterLoc later hlater hwho
    obtain ⟨_, hroundDuring, _⟩ := hduring.statements _ hround
    obtain ⟨J, hbehind, hget⟩ := hroundDuring.joined_behind_commit hcommit
    obtain ⟨_, hlaterDuring, hext⟩ := hbehind.statements _ hlater
    exact hlaterDuring.keeps_address hext (by rw [hwho, hget])

theorem countingApp_joins_once :
    ∃ p, (compileBundle 30 {} {} Surface.countingApp "main").1 = .ok p ∧
      (codePaths p.body).map (·.map (·.join)) = [[true, false]] ∧
      (∀ path ∈ codePaths p.body, ∀ before v after, path = before ++ v :: after → v.join = false →
        ⟨v.who, true, v.address, true⟩ ∈ before) ∧
      ∀ loc t commitLoc behind, .toConsensus loc t ∈ statements p.body →
        .fromConsensus commitLoc behind ∈ ownStatements t.body →
        ∀ laterLoc later, .toConsensus laterLoc later ∈ statements behind → later.who = t.who →
          later.join = false ∧ later.whoVar = t.whoVar := by
  obtain ⟨p, hp, hpaths⟩ := exists_ok_of_any
    (f := fun p : Program => (codePaths p.body).map (·.map (·.join)) == [[true, false]])
    (x := (compileBundle 30 {} {} Surface.countingApp "main").1) (by decide +kernel)
  exact ⟨p, hp, by simpa using hpaths, compileBundle_joins_once hp⟩

/-! ### Paths with two joins -/

namespace Surface

/-- The round may time out, and then its sender tries once more. -/
def lateApp : Bundle :=
  appOf ["A"] [
    .expr here (method (method (name "A") "publish" []) "timeout" [number "10", thunk [
      .expr here (method (name "A") "publish" []),
      .expr here (apply "commit" []),
      .expr here (apply "exit" [])]]),
    .expr here (apply "commit" []),
    .expr here (apply "exit" [])]

/-- One branch takes a round and leaves the program; the other one goes on behind it. -/
def leavingApp : Bundle :=
  appOf ["A", "B"] [
    .expr here (method (name "A") "publish" []),
    define "low" (.binary here .lt (apply "balance" []) (number "5")),
    .expr here (apply "commit" []),
    .branch here (name "low") (.block ⟨here, [
      .expr here (method (name "B") "publish" []),
      .expr here (apply "commit" []),
      .expr here (apply "exit" [])]⟩) none,
    .expr here (method (name "B") "publish" []),
    .expr here (apply "commit" [])]

/-- A block takes a round and commits it; the same participant takes the next round. -/
def repeatingApp : Bundle :=
  appOf ["A"] [
    .block ⟨here, [.expr here (method (name "A") "publish" []), .expr here (apply "commit" [])]⟩,
    .expr here (method (name "A") "publish" []),
    .expr here (apply "commit" [])]

end Surface

/-- The participants that join more than once on a path. -/
def Ir.joinTwice (path : List Visit) : List String :=
  let joins := (path.filter (·.join)).map (·.who)
  joins.filter fun who => 1 < joins.count who

/-- The program compiles, and a participant joins twice on one of its paths. -/
def JoinsTwice (bundle : Bundle) : Prop :=
  ∃ p, (compileBundle 30 {} {} bundle "main").1 = .ok p ∧
    ∃ path ∈ codePaths p.body, joinTwice path ≠ []

theorem joinsTwice_of_any {bundle : Bundle}
    (h : (compileBundle 30 {} {} bundle "main").1.toOption.any
      (fun p => (codePaths p.body).any fun path => !(joinTwice path).isEmpty) = true) :
    JoinsTwice bundle := by
  obtain ⟨p, hp, hany⟩ := exists_ok_of_any h
  obtain ⟨path, hpath, htwice⟩ := List.any_eq_true.1 hany
  exact ⟨p, hp, path, hpath, by simpa using htwice⟩

/-- A participant joins twice on a path into a timeout, on a path behind a branch that has left the
program, and on a path behind a block. -/
theorem participants_join_twice :
    JoinsTwice Surface.lateApp ∧ JoinsTwice Surface.leavingApp ∧
      JoinsTwice Surface.repeatingApp := by
  refine ⟨joinsTwice_of_any ?_, joinsTwice_of_any ?_, joinsTwice_of_any ?_⟩
  all_goals decide +kernel

end Choreography
