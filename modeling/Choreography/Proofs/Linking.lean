import Choreography.Compile
import Choreography.Proofs.Faults
import Choreography.Proofs.Values

/-!
Linking keeps what the top level of modules keeps: if imports and statements at the top level
preserve a property of environments that holds of the base environment, and bind only what has a
property of bindings, then everything that a bundle exports has the latter.
-/

namespace Choreography

open Eval

variable {s s' : Supply} {ev : Evaluator} {P : String × SecValue → Prop} {Q : Surface.Stmt → Prop}
  {sources : SourceTable} {libs : Libraries} {options : Options} {bundle : Bundle}

/-- The statement of the item, if it has one, satisfies `Q`. -/
def Surface.Item.Satisfies (Q : Surface.Stmt → Prop) : Surface.Item → Prop
  | .exported _ stmt | .plain _ stmt => Q stmt
  | .importFrom .. | .foreign .. => True

/-- Everything that an environment binds satisfies `P`. -/
def Bindings.Satisfies (P : String × SecValue → Prop) (env : Bindings) : Prop :=
  ∀ b ∈ env.entries, P b

namespace Bindings.Satisfies

variable {env overlay out : Bindings} {loc : Loc} {name : String} {sv : SecValue}
  {more : List (String × SecValue)}

theorem empty : Bindings.Satisfies P {} := by simp [Bindings.Satisfies]

theorem of_append (h : env.Satisfies P) (hmore : ∀ b ∈ more, P b)
    (hentries : out.entries = env.entries ++ more) : out.Satisfies P := by
  intro b hb
  rw [hentries] at hb
  exact (List.mem_append.1 hb).elim (h b) (hmore b)

theorem merge (h : env.Satisfies P) (hoverlay : overlay.Satisfies P)
    (hrun : (env.merge loc overlay).Yields s out s') : out.Satisfies P :=
  h.of_append hoverlay (Bindings.merge_yields hrun).1

theorem bindAll (h : env.Satisfies P) (hmore : ∀ b ∈ more, P b) :
    Gives (Bindings.Satisfies P) (env.bindAll loc more) :=
  .of_yields fun hrun => h.of_append hmore (Bindings.bindAll_yields hrun).1

theorem bind (h : env.Satisfies P) (hnew : P (name, sv)) :
    Gives (Bindings.Satisfies P) (env.bind loc name sv) := by
  refine .of_yields fun hrun => ?_
  obtain ⟨_, rfl, _⟩ := Bindings.bind_yields.1 hrun
  exact h.of_append (List.forall_mem_singleton.2 hnew) rfl

theorem set (h : env.Satisfies P) (hnew : P (name, sv)) :
    Bindings.Satisfies P (env.set name sv) := by
  intro b hb
  rcases Env.mem_set hb with hold | rfl
  · exact h b hold
  · exact hnew

/-- What is sent is bound to variables. -/
theorem messages {ctx : Ctx} {roundLoc : Loc} {view : Bindings} {names : List String}
    (hvar : ∀ name ∈ names, ∀ v, P (name, .pub (.var v))) : ∀ {sent : Bindings}, sent.Satisfies P →
      Gives (fun r => Bindings.Satisfies P r.2) (ctx.messages loc roundLoc view sent names) := by
  induction names with
  | nil => exact fun hsent => .pure hsent
  | cons name names ih =>
    obtain ⟨hfirst, hrest⟩ := List.forall_mem_cons.1 hvar
    exact fun hsent => .skip fun _ => .skip fun _ => .skip fun _ =>
      .skip fun _ => (hsent.bind (hfirst _)).bind fun _ hout =>
        (ih hrest hout).bind fun _ hall => .pure hall

end Bindings.Satisfies

/-- The exports of every library satisfy `P`. -/
def Libraries.Satisfies (P : String × SecValue → Prop) (libs : Libraries) : Prop :=
  ∀ e ∈ libs.entries, Bindings.Satisfies P e.2

/-- A module in progress has an environment that satisfies `E`, and exports that satisfy `P`. -/
structure ModuleState.Satisfies (E : Bindings → Prop) (P : String × SecValue → Prop)
    (m : ModuleState) : Prop where
  env : E m.env
  exports : m.exports.Satisfies P

namespace Link

/-- The environments of modules satisfy `E` as long as statements satisfy `Q` and imports satisfy
`P`, and what statements add to them satisfies `P`. -/
structure Preserves (ev : Evaluator) (E : Bindings → Prop) (P : String × SecValue → Prop)
    (Q : Surface.Stmt → Prop) : Prop where
  base : E baseEnv
  library {overlay : Bindings} : overlay.Satisfies P → E (baseEnv.setAll overlay.entries)
  imported {loc : Loc} {env overlay out : Bindings} {s s' : Supply} :
    (env.merge loc overlay).Yields s out s' → E env → overlay.Satisfies P → E out
  topLevel {loc : Loc} {env out : Bindings} {stmt : Surface.Stmt} {s s' : Supply} :
    (Link.topLevel ev loc env stmt).Yields s out s' → E env → Q stmt →
    E out ∧ Bindings.Satisfies P (out.difference env)

/-- At the top level of modules, statements that satisfy `Q` bind only what satisfies `P`. -/
structure Keeps (ev : Evaluator) (P : String × SecValue → Prop) (Q : Surface.Stmt → Prop) :
    Prop where
  base : baseEnv.Satisfies P
  topLevel {loc : Loc} {env out : Bindings} {stmt : Surface.Stmt} {s s' : Supply} :
    (Link.topLevel ev loc env stmt).Yields s out s' → env.Satisfies P → Q stmt → out.Satisfies P

theorem Keeps.preserves (hkeeps : Keeps ev P Q) : Preserves ev (Bindings.Satisfies P) P Q where
  base := hkeeps.base
  library := by
    intro overlay hoverlay b hb
    exact (Env.mem_setAll hb).elim (hkeeps.base b) (hoverlay b)
  imported := fun hrun henv hoverlay => henv.merge hoverlay hrun
  topLevel := by
    intro loc env out stmt s s' hrun henv hstmt
    have hout := hkeeps.topLevel hrun henv hstmt
    exact ⟨hout, fun b hb => hout b (List.mem_filter.1 hb).1⟩

namespace Preserves

variable {E : Bindings → Prop}

theorem item (hlink : Preserves ev E P Q) {m out : ModuleState} {item : Surface.Item}
    (hrun : (Link.item ev sources libs m item).Yields s out s') (hlibs : libs.Satisfies P)
    (hm : m.Satisfies E P) (hitem : item.Satisfies Q) : out.Satisfies E P := by
  cases item with
  | importFrom loc source =>
    simp only [Link.item, Link.dependency, yields_bind, yields_orFail, yields_pure] at hrun
    obtain ⟨imported, _, ⟨himported, rfl⟩, env, _, hmerge, rfl, rfl⟩ := hrun
    obtain ⟨file, _, hget⟩ := Option.bind_eq_some_iff.1 himported
    have hsatisfies : imported.Satisfies P := hlibs _ (OrderedMap.mem_of_get? hget)
    exact ⟨hlink.imported hmerge hm.env hsatisfies, hm.exports⟩
  | exported loc stmt =>
    simp only [Link.item, yields_bind, yields_pure] at hrun
    obtain ⟨env, _, htop, exports, _, hmerge, rfl, rfl⟩ := hrun
    obtain ⟨henv, hnew⟩ := hlink.topLevel htop hm.env hitem
    exact ⟨henv, hm.exports.merge hnew hmerge⟩
  | plain loc stmt =>
    simp only [Link.item, yields_bind, yields_pure] at hrun
    obtain ⟨env, _, htop, rfl, rfl⟩ := hrun
    exact ⟨(hlink.topLevel htop hm.env hitem).1, hm.exports⟩
  | foreign loc what => cases what <;> simp [Link.item] at hrun

theorem items (hlink : Preserves ev E P Q) (hlibs : libs.Satisfies P)
    {items : List Surface.Item} :
    ∀ {m out : ModuleState} {s s' : Supply}, (Link.items ev sources libs m items).Yields s out s' →
      m.Satisfies E P → (∀ item ∈ items, item.Satisfies Q) → out.Satisfies E P := by
  induction items with
  | nil =>
    intro m out s s' hrun hm _
    simp only [Link.items, yields_pure] at hrun
    rw [hrun.1]
    exact hm
  | cons first rest ih =>
    intro m out s s' hrun hm hitems
    obtain ⟨hfirst, hrest⟩ := List.forall_mem_cons.1 hitems
    simp only [Link.items, yields_bind] at hrun
    obtain ⟨next, _, hnext, hrun⟩ := hrun
    exact ih hrun (hlink.item hnext hlibs hm hfirst) hrest

theorem initialEnv (hlink : Preserves ev E P Q) {m : ModuleSource} {out : Bindings}
    (hrun : (Link.initialEnv libs m).Yields s out s') (hlibs : libs.Satisfies P) : E out := by
  unfold Link.initialEnv at hrun
  split at hrun
  · simp only [yields_pure] at hrun
    rw [hrun.1]
    exact hlink.base
  · simp only [yields_bind, yields_orFail, yields_pure] at hrun
    obtain ⟨library, _, ⟨hget, rfl⟩, rfl, rfl⟩ := hrun
    have hlibrary : library.Satisfies P := hlibs _ (OrderedMap.mem_of_get? hget)
    exact hlink.library hlibrary

theorem moduleExports (hlink : Preserves ev E P Q) {m : ModuleSource} {out : Bindings}
    (hrun : (Link.moduleExports ev options sources libs m).Yields s out s')
    (hlibs : libs.Satisfies P) (hitems : ∀ item ∈ m.tree.items, item.Satisfies Q) :
    out.Satisfies P := by
  simp only [Link.moduleExports, yields_bind, yields_pure] at hrun
  obtain ⟨items, _, hafter, env, _, henv, result, _, hresult, rfl, rfl⟩ := hrun
  have hrest : ∀ item ∈ items, item.Satisfies Q := by
    unfold Surface.Module.afterHeader at hafter
    split at hafter
    · simp at hafter
    · rename_i first rest hmodule
      simp only [yields_bind, yields_pure] at hafter
      obtain ⟨_, _, _, rfl, _⟩ := hafter
      intro item hitem
      exact hitems item (by rw [hmodule]; exact List.mem_cons_of_mem _ hitem)
  exact (hlink.items hlibs hresult
    ⟨hlink.initialEnv henv hlibs, by simp [Bindings.Satisfies]⟩ hrest).exports

theorem modules (hlink : Preserves ev E P Q) :
    ∀ {libs out : Libraries} {s s' : Supply},
      (Link.modules ev options sources libs bundle).Yields s out s' → libs.Satisfies P →
      (∀ m ∈ bundle, ∀ item ∈ m.tree.items, item.Satisfies Q) → out.Satisfies P := by
  induction bundle with
  | nil =>
    intro libs out s s' hrun hlibs _
    simp only [Link.modules, yields_pure] at hrun
    rw [hrun.1]
    exact hlibs
  | cons m rest ih =>
    intro libs out s s' hrun hlibs hbundle
    obtain ⟨hfirst, hothers⟩ := List.forall_mem_cons.1 hbundle
    simp only [Link.modules, yields_bind] at hrun
    obtain ⟨exports, _, hexports, hrest⟩ := hrun
    exact ih hrest (OrderedMap.forall_mem_insert (hlink.moduleExports hexports hlibs hfirst) hlibs)
      hothers

end Preserves

end Link

/-- Every participant of an app gets a view, and what holds of each view at first holds of them all. -/
theorem App.views_meets {F : Stop → Prop} {V : String × Bindings → Prop} {loc : Loc} {env : Bindings}
    {parts : List Participant} (hview : ∀ p ∈ parts, Meets F (fun view => V (p.who, view))
      (env.bind loc "interact" (.secret p.interactValue))) :
    ∀ {known : NameMap Bindings}, (∀ e ∈ known.entries, V e) →
      Meets F (fun views => (∀ e ∈ views.entries, V e) ∧
          (∀ who, views.get? who = none → known.get? who = none) ∧
          ∀ p ∈ parts, views.get? p.who ≠ none) (App.views loc env known parts) := by
  induction parts with
  | nil => exact fun hknown => .pure ⟨hknown, fun _ h => h, by simp⟩
  | cons p parts ih =>
    intro known hknown
    obtain ⟨hfirst, hrest⟩ := List.forall_mem_cons.1 hview
    refine hfirst.bind fun view hview =>
      (ih hrest (OrderedMap.forall_mem_insertNew hview hknown)).imp ?_
    rintro views ⟨hviews, hkept, hparts⟩
    refine ⟨hviews, fun who hnone => ?_, List.forall_mem_cons.2 ⟨fun hnone => ?_, hparts⟩⟩
    · exact (OrderedMap.ne_of_get?_insertNew_eq_none (hkept who hnone)).2
    · exact (OrderedMap.ne_of_get?_insertNew_eq_none (hkept p.who hnone)).1 rfl

/-- Compilation with an evaluator of any kind. -/
def compileWith (ev : Evaluator) (options : Options) (sources : SourceTable) (bundle : Bundle)
    (top : String) : Eval Ir.Program := do
  let entry ← Eval.orFail bundle.getLast? .emptyBundle
  let libs ← Link.modules ev options sources {} (Link.withLibrary options bundle)
  let loc := entry.tree.loc
  let exports ← Eval.orFail (libs.get? entry.file) .emptyBundle
  let sv ← exports.lookup loc top
  let value ← sv.requirePublic loc
  match value with
  | .prim appLoc (.app _ a) => a.compile ev appLoc
  | _ => Eval.fail (.notApp loc value.describe)

theorem compile_eq_compileWith (fuel : Nat) (options : Options) (bundle : Bundle) (top : String) :
    compile fuel options sources bundle top =
      compileWith (evaluator fuel) options sources bundle top := rfl

/-- The app that is compiled is one of the exports. -/
theorem compileWith_preserves {E : Bindings → Prop} {top : String} {p : Ir.Program}
    (hpreserves : Link.Preserves ev E P Q)
    (hlibrary : ∀ file header, ∀ item ∈ (standardLibrary file header).items, item.Satisfies Q)
    (hbundle : ∀ m ∈ bundle, ∀ item ∈ m.tree.items, item.Satisfies Q)
    (hrun : (compileWith ev options sources bundle top).Yields s p s') :
    ∃ appLoc tag a s₁, P (top, .pub (.prim appLoc (.app tag a))) ∧
      (a.compile ev appLoc).Yields s₁ p s' := by
  simp only [compileWith, yields_bind, yields_orFail, Bindings.lookup_yields,
    SecValue.requirePublic_yields] at hrun
  obtain ⟨entry, _, _, libs, _, hlink, exports, _, ⟨hget, _⟩, sv, _, ⟨hfind, _⟩, value, _,
    ⟨rfl, _⟩, hrun⟩ := hrun
  have hall : ∀ m ∈ Link.withLibrary options bundle, ∀ item ∈ m.tree.items, item.Satisfies Q := by
    unfold Link.withLibrary
    split
    · exact hbundle
    · exact List.forall_mem_cons.2 ⟨hlibrary _ _, hbundle⟩
  have hlibs : libs.Satisfies P := hpreserves.modules hlink (by simp [Libraries.Satisfies]) hall
  split at hrun
  · rename_i appLoc tag a
    refine ⟨appLoc, tag, a, _, ?_, hrun⟩
    exact hlibs _ (OrderedMap.mem_of_get? hget) _ (Bindings.mem_of_find? hfind)
  · simp at hrun

theorem compile_preserves {E : Bindings → Prop} {fuel : Nat} {top : String} {p : Ir.Program}
    (hpreserves : Link.Preserves (evaluator fuel) E P Q)
    (hlibrary : ∀ file header, ∀ item ∈ (standardLibrary file header).items, item.Satisfies Q)
    (hbundle : ∀ m ∈ bundle, ∀ item ∈ m.tree.items, item.Satisfies Q)
    (hrun : (compile fuel options sources bundle top).Yields s p s') :
    ∃ appLoc tag a s₁, P (top, .pub (.prim appLoc (.app tag a))) ∧
      (a.compile (evaluator fuel) appLoc).Yields s₁ p s' :=
  compileWith_preserves hpreserves hlibrary hbundle (compile_eq_compileWith .. ▸ hrun)

theorem compile_yields {fuel : Nat} {top : String} {p : Ir.Program}
    (hkeeps : Link.Keeps (evaluator fuel) P Q)
    (hlibrary : ∀ file header, ∀ item ∈ (standardLibrary file header).items, item.Satisfies Q)
    (hbundle : ∀ m ∈ bundle, ∀ item ∈ m.tree.items, item.Satisfies Q)
    (hrun : (compile fuel options sources bundle top).Yields s p s') :
    ∃ appLoc tag a s₁, P (top, .pub (.prim appLoc (.app tag a))) ∧
      (a.compile (evaluator fuel) appLoc).Yields s₁ p s' :=
  compile_preserves hkeeps.preserves hlibrary hbundle hrun

end Choreography
