import Choreography.Elaboration
import Choreography.Proofs.Linking
import Choreography.Proofs.Statements

/-!
Modules export formed bindings, and the program of an app is formed code. Exports hold no code and
no variable of the program, so they are formed whatever the participants turn out to offer.
-/

namespace Choreography

open Eval Ir

variable {R : Regime} {s s' : Supply} {loc : Loc} {env : Bindings} {ev : Evaluator} {p : Program}

/-! ### The base environment and the standard library -/

/-- Everything that a program can name is formed, but for the binding that declassifies. -/
theorem baseEnv_formed : baseEnv.Formed R [] := by
  intro b hb hreserved
  have hmem := Env.mem_ofList hb
  simp only [List.mem_cons, List.not_mem_nil, or_false] at hmem
  rcases hmem with rfl | rfl | rfl | rfl | rfl | rfl | rfl | rfl | rfl | rfl | rfl | rfl | rfl | rfl |
    rfl | rfl | rfl | rfl | rfl | rfl | rfl | rfl
  on_goal 2 => exact absurd ⟨rfl, rfl⟩ hreserved
  any_goals exact .prim trivial
  any_goals exact .type (by constructor)
  · refine .object (by decide) fun b hb => ?_
    obtain rfl := List.mem_singleton.1 (Env.mem_ofList hb)
    exact .appForm

theorem standardLibrary_idents (file : Nat) (header : String) :
    R.Admits (standardLibrary file header).idents := by
  intro _
  simp [standardLibrary, Surface.Module.idents, Surface.Item.idents, Surface.Stmt.idents,
    Surface.Expr.idents, Surface.exprsIdents, Surface.Block.returning, Surface.Block.idents_eq,
    Surface.stmtsIdents]

/-! ### Modules -/

theorem Link.topLevel_formed {stmt : Surface.Stmt} {out : Bindings} (hev : ev.Sound R)
    (hrun : (Link.topLevel ev loc env stmt).Yields s out s') (henv : env.Formed R [])
    (hnames : R.Admits stmt.idents) : out.Formed R [] := by
  simp only [Link.topLevel, yields_bind, yields_ensure, yields_pure, Bool.and_eq_true] at hrun
  obtain ⟨r, _, hr, _, _, ⟨⟨hempty, _⟩, rfl⟩, rfl, rfl⟩ := hrun
  have hscope : Scope.Formed R [] { env } := ⟨henv, by simp⟩
  have hmode : Link.moduleCtx.mode.Formed R [] [] := trivial
  obtain ⟨E, O, B, hcode, _, _, hout⟩ :=
    hev.stmts hr hmode hscope (by simpa [Surface.stmtsIdents] using hnames)
  have hformed := hcode.formed
  rw [List.isEmpty_iff.1 hempty] at hformed
  cases hformed
  exact hout trivial

/-- Modules bind only what is formed. -/
theorem Link.keeps_formed (hev : ev.Sound R) :
    Link.Keeps ev (fun b => ¬ Reserved b → b.2.Formed R []) (fun stmt => R.Admits stmt.idents) :=
  ⟨baseEnv_formed, fun hrun henv hnames => Link.topLevel_formed hev hrun henv hnames⟩

theorem Surface.Module.admits_items {m : Surface.Module} (h : R.Admits m.idents) :
    ∀ item ∈ m.items, item.Satisfies fun stmt => R.Admits stmt.idents := by
  intro item hitem
  have hadmits : R.Admits item.idents :=
    fun hguarded hmem => h hguarded (List.mem_flatMap.2 ⟨item, hitem, hmem⟩)
  cases item with
  | exported | plain => exact hadmits
  | importFrom | foreign => exact trivial

/-! ### Apps -/

/-- Adds what a participant's frontend offers; what was offered before under a name stays. -/
def App.offer (all : NameMap (NameMap Ty)) (p : Participant) : NameMap (NameMap Ty) :=
  all.insert p.who
    (p.interface.foldl (fun m (method, t) => m.insertNew method t) ((all.get? p.who).getD {}))

theorem App.get?_offer_self {all : NameMap (NameMap Ty)} {p : Participant} {method : String}
    {t : Ty} (hp : p.Formed) (hnew : all.get? p.who = none) (hmem : (method, t) ∈ p.interface) :
    ∃ methods, (App.offer all p).get? p.who = some methods ∧ methods.get? method = some t := by
  refine ⟨_, OrderedMap.get?_insert_self _ _ _, ?_⟩
  rw [hnew]
  exact OrderedMap.get?_foldl_insertNew_of_mem hp.1 hmem rfl

theorem App.get?_offers_of_some (parts : List Participant) {who method : String} {t : Ty} :
    ∀ {all : NameMap (NameMap Ty)},
      (∃ methods, all.get? who = some methods ∧ methods.get? method = some t) →
      ∃ methods, (parts.foldl App.offer all).get? who = some methods ∧
        methods.get? method = some t := by
  induction parts with
  | nil =>
    intro all h
    exact h
  | cons p parts ih =>
    rintro all ⟨methods, hget, hmethod⟩
    refine ih ?_
    by_cases hwho : who = p.who
    · subst hwho
      refine ⟨_, OrderedMap.get?_insert_self _ _ _, ?_⟩
      rw [hget]
      exact OrderedMap.get?_foldl_insertNew_of_some hmethod
    · refine ⟨methods, ?_, hmethod⟩
      rw [App.offer, OrderedMap.get?_insert_of_ne hwho, hget]

/-- The object by which a participant reaches its own frontend. -/
theorem Participant.interactValue_formed {X : List Known} {p : Participant} (hp : p.Formed)
    (hoffers : ∀ m ∈ p.interface, R.Offers p.who m.1 m.2) :
    p.interactValue.Formed R X .secret := by
  refine .object (by simpa [Function.comp_def] using hp.1) fun b hb => ?_
  obtain ⟨m, hm, rfl⟩ := List.mem_map.1 hb
  exact .prim ⟨.refl, hoffers m hm, hp.2 m hm⟩

/-- The first participant of a name has the view of that name, and its interface is the one that is
offered under the name. -/
theorem App.views_formed {X : List Known} (henv : env.Formed R X) {parts : List Participant}
    (hparts : ∀ p ∈ parts, p.Formed) :
    ∀ {known views : NameMap Bindings} {all : NameMap (NameMap Ty)} {s s' : Supply},
      (App.views loc env known parts).Yields s views s' →
      parts.foldl App.offer all = R.interfaces →
      (∀ who, known.get? who = none → all.get? who = none) →
      (∀ e ∈ known.entries, Bindings.Formed R X e.2) →
      (∀ e ∈ views.entries, Bindings.Formed R X e.2) ∧ s' = s := by
  induction parts with
  | nil =>
    intro known views all s s' hrun _ _ hknown
    simp only [App.views, yields_pure] at hrun
    obtain ⟨rfl, rfl⟩ := hrun
    exact ⟨hknown, rfl⟩
  | cons p parts ih =>
    intro known views all s s' hrun hall hfirst hknown
    obtain ⟨hp, hothers⟩ := List.forall_mem_cons.1 hparts
    simp only [App.views, yields_bind, Bindings.bind_yields] at hrun
    obtain ⟨view, _, ⟨_, rfl, rfl⟩, hrest⟩ := hrun
    refine ih hothers hrest hall ?_ ?_
    · intro who hnone
      obtain ⟨hne, hold⟩ := OrderedMap.ne_of_get?_insertNew_eq_none hnone
      rw [App.offer, OrderedMap.get?_insert_of_ne hne, hfirst who hold]
    · intro e he
      unfold OrderedMap.insertNew at he
      split at he
      · exact hknown e he
      · rename_i hnew
        rcases OrderedMap.mem_insert he with rfl | hold
        · refine henv.push (Participant.interactValue_formed hp fun m hm => ?_)
          have hoffered := App.get?_offers_of_some parts
            (App.get?_offer_self hp (hfirst _ hnew) hm)
          rwa [← List.foldl_cons, hall] at hoffered
        · exact hknown e hold

theorem App.compile_emits {a : App} (hev : ev.Sound R) (hrun : (a.compile ev loc).Yields s p s')
    (hinterfaces : R.interfaces = p.participants) (hparts : ∀ p ∈ a.parts, p.Formed)
    (hnames : R.Admits a.body.idents) (henv : Bindings.Formed R [] a.env) :
    ∃ (O B : List Known) (s₁ s₂ : Supply), Emits R [] [] s₁ s₂ p.body [] O B := by
  simp only [App.compile, yields_bind, yields_pure] at hrun
  obtain ⟨views, _, hviews, _, _, _, r, _, hr, rfl, rfl⟩ := hrun
  obtain ⟨hviewsFormed, rfl⟩ :=
    App.views_formed henv hparts hviews hinterfaces.symm (fun _ _ => rfl) (by simp)
  have hmode : Mode.Formed R [] [] (.step { views }) := ⟨by simp, hviewsFormed⟩
  have hscope : Scope.Formed R [] { env := a.env } := ⟨henv, by simp⟩
  obtain ⟨E, O, B, hcode, hreturned, _⟩ :=
    hev.stmts hr hmode hscope (by rw [← Surface.Block.idents_eq]; exact hnames)
  -- the body of an app has no slot, so nothing returns
  have hnone : E = [] := by
    refine List.eq_nil_iff_forall_not_mem.2 fun ret hret => ?_
    simpa using (hreturned.exit ret hret).1
  subst hnone
  exact ⟨O, B, _, _, hcode⟩

/-! ### Programs -/

theorem compile_emits {fuel : Nat} {options : Options} {sources : SourceTable} {bundle : Bundle}
    {top : String} (hrun : (compile fuel options sources bundle top).Yields s p s')
    (hinterfaces : R.interfaces = p.participants) (hnames : ∀ m ∈ bundle, R.Admits m.tree.idents) :
    ∃ (O B : List Known) (s₁ s₂ : Supply), Emits R [] [] s₁ s₂ p.body [] O B := by
  have hev : (evaluator fuel).Sound R := evaluator_sound R fuel
  obtain ⟨appLoc, tag, a, _, hexported, hrun⟩ := compile_yields (Link.keeps_formed hev)
    (fun file header => (standardLibrary file header).admits_items (standardLibrary_idents _ _))
    (fun m hm => m.tree.admits_items (hnames m hm)) hrun
  have happ : (Value.prim appLoc (.app tag a)).Formed R [] .pub := by
    refine hexported ?_
    rintro ⟨_, ⟨⟩⟩
  cases happ with
  | prim h => exact h.elim
  | app hparts hadmits henv => exact App.compile_emits hev hrun hinterfaces hparts hadmits henv

theorem Elaboration.perform_yields {α : Type} {e : Elaboration} {x : Eval α} {a : α}
    (h : (e.perform x).1 = .ok a) : ∃ s', x.Yields e.supply a s' := by
  unfold Elaboration.perform at h
  split at h
  · simp at h
  · rename_i result supply _ hrun
    subst h
    exact ⟨supply, hrun⟩

/-- The code of every program that is compiled is formed, with what its own participants offer, and
it is emitted by one run. Where no name refers to the binding that declassifies, it is formed under
the rules of secrecy too. -/
theorem compileBundle_emits (guarded : Bool) {fuel : Nat} {options : Options} {session : Session}
    {bundle : Bundle} {top : String}
    (hcompile : (compileBundle fuel options session bundle top).1 = .ok p)
    (hnames : guarded = true → ∀ m ∈ bundle, "declassify" ∉ m.tree.idents) :
    ∃ (O B : List Known) (s s' : Supply),
      Emits ⟨p.participants, guarded⟩ [] [] s s' p.body [] O B := by
  obtain ⟨s', hrun⟩ := Elaboration.perform_yields hcompile
  exact compile_emits hrun rfl fun m hm hguarded => hnames hguarded m hm

/-- The body of every program that is compiled is emitted for the statements of an app, which stand
in no function and in no loop. -/
theorem compileBundle_evaluates {fuel : Nat} {options : Options} {session : Session}
    {bundle : Bundle} {top : String}
    (hcompile : (compileBundle fuel options session bundle top).1 = .ok p) :
    ∃ views loc env stmts s r s',
      ((evaluator fuel).stmts { mode := .step { views }, canLift := true } loc { env } stmts).Yields
        s r s' ∧ p.body = r.code := by
  obtain ⟨_, hrun⟩ := Elaboration.perform_yields hcompile
  simp only [compile, yields_bind] at hrun
  obtain ⟨_, _, _, _, _, _, _, _, _, _, _, _, value, _, _, hrun⟩ := hrun
  split at hrun
  · simp only [App.compile, yields_bind, yields_pure] at hrun
    obtain ⟨views, _, _, _, _, _, r, _, hr, rfl, _⟩ := hrun
    exact ⟨views, _, _, _, _, r, _, hr, rfl⟩
  · simp at hrun

/-! ### Programs to compile -/

namespace Surface

/-- One place for all of a program that is not read from a file. -/
def here : Loc := ⟨1, 1, 1⟩

def name (x : String) : Expr := .ident here x

def number (digits : String) : Expr := .int here digits 10

def apply (f : String) (args : List Expr) : Expr := .call here (name f) args

/-- A method of a value applied to arguments. -/
def method (base : Expr) (field : String) (args : List Expr) : Expr :=
  .call here (.dot here base field) args

def define (x : String) (e : Expr) : Stmt := .constDecl here [⟨here, name x, some e⟩]

/-- A function without formals. -/
def thunk (body : List Stmt) : Expr := .arrow here [] ⟨here, body⟩

/-- A module that exports an app of the participants. The frontend of each answers `getX` with a
number. -/
def appOf (participants : List String) (body : List Stmt) : Bundle :=
  let interface : Expr := .object here
    [.value here (.ident "getX") (apply "Fun" [.array here [], name "UInt256"])]
  let quoted (who : String) : String := "'" ++ who ++ "'"
  let declared := participants.map fun who => .array here [.string here (quoted who), interface]
  let app : Expr := method (name "Reach") "App"
    [.object here [], .array here declared, .arrow here participants ⟨here, body⟩]
  [⟨1, ⟨here, [.plain here (.expr here (.string here "'reach 0.1'")),
    .exported here (define "main" app)]⟩⟩]

/-- A module that exports an app of one participant, whose frontend offers `x` at a type. -/
def offeringApp (type : Expr) (body : List Stmt) : Bundle :=
  let participant : Expr := .array here
    [.string here "'A'", .object here [.value here (.ident "x") type]]
  let app : Expr := method (name "Reach") "App"
    [.object here [], .array here [participant], .arrow here ["A"] ⟨here, body⟩]
  [⟨1, ⟨here, [.plain here (.expr here (.string here "'reach 0.1'")),
    .exported here (define "main" app)]⟩⟩]

/-- The participant publishes a number and pays; consensus counts the number up in a loop, and a
second round pays everything back. -/
def countingApp : Bundle :=
  appOf ["A"] [
    .expr here (method (name "A") "only" [thunk [
      define "s" (method (name "interact") "getX" []),
      .expr here (apply "assume" [.binary here .lt (name "s") (number "10")]),
      define "x" (number "5")]]),
    .expr here (method (method (name "A") "publish" [name "x"]) "pay" [number "3"]),
    .varDecl here [⟨here, name "i", some (name "x")⟩],
    .methodCall here (name "invariant") [.bool here true],
    .loop here (.binary here .lt (name "i") (number "10")) (.block ⟨here, [
      .assign here .assign (name "i") (.binary here .plus (name "i") (number "1")), .cont here]⟩),
    .expr here (apply "commit" []),
    .expr here (method (name "A") "publish" []),
    .expr here (method (apply "transfer" [apply "balance" []]) "to" [name "A"]),
    .expr here (apply "commit" []),
    .expr here (apply "exit" [])]

end Surface

theorem exists_ok_of_any {α : Type} {x : Except Stop α} {f : α → Bool}
    (h : x.toOption.any f = true) : ∃ a, x = .ok a ∧ f a = true := by
  cases x with
  | ok a => exact ⟨a, rfl, h⟩
  | error _ => simp [Except.toOption] at h

theorem countingApp_compiles :
    ∃ p, (compileBundle 30 {} {} Surface.countingApp "main").1 = .ok p := by
  obtain ⟨p, hp, _⟩ := exists_ok_of_any (f := fun _ => true)
    (x := (compileBundle 30 {} {} Surface.countingApp "main").1) (by decide +kernel)
  exact ⟨p, hp⟩

end Choreography
