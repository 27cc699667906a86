import Choreography.Proofs.CastPrograms
import Choreography.Proofs.Compilation

/-!
When the compiler blames itself. Of a bundle that is in order (it is not empty, leaves the standard
library alone, and each import names a module before it) compilation can stop with an internal fault
in two ways only, both in the program of the app that is compiled: something that a frontend offers
is applied although its type is no function, and a round begins where the name of its sender stands
for something else. Both are mistakes of the program.
-/

namespace Choreography

open Eval

variable {ev : Evaluator} {sources : SourceTable} {libs : Libraries} {seen : List Nat}

/-! ### Bundles in order -/

/-- The modules that a module imports, by path. -/
def Surface.Module.imports (m : Surface.Module) : List String :=
  m.items.filterMap fun
    | .importFrom _ source => some source
    | _ => none

/-- Each import names a module before its own, or one of the files that were `seen` before. -/
def Bundle.importsInOrder (sources : SourceTable) : List Nat → Bundle → Bool
  | _, [] => true
  | seen, m :: rest =>
    m.tree.imports.all (fun path => (sources.find? path).any seen.contains) &&
      importsInOrder sources (m.file :: seen) rest

/-- A bundle that has an entry, leaves the standard library to the compiler, and imports only modules
that come before. -/
structure Bundle.InOrder (sources : SourceTable) (bundle : Bundle) : Prop where
  entry : bundle ≠ []
  own : ∀ m ∈ bundle, m.file ≠ SourceTable.libraryId
  imports : bundle.importsInOrder sources [] = true

/-! ### Linking -/

/-- The libraries are those of the files seen so far, and no one takes part in them. -/
structure Libraries.Ready (seen : List Nat) (libs : Libraries) : Prop where
  known : ∀ file ∈ seen, ∃ exports, libs.get? file = some exports
  exports : ∀ e ∈ libs.entries, Bindings.Within {} e.2

theorem Libraries.Ready.get? (h : libs.Ready seen) {file : Nat} {exports : Bindings}
    (hget : libs.get? file = some exports) : exports.Within {} :=
  h.exports _ (OrderedMap.mem_of_get? hget)

theorem Libraries.Ready.insert (h : libs.Ready seen) (file : Nat) {exports : Bindings}
    (hexports : exports.Within {}) : Libraries.Ready (file :: seen) (libs.insert file exports) := by
  refine ⟨fun other hother => ?_, OrderedMap.forall_mem_insert hexports h.exports⟩
  by_cases heq : other = file
  · exact ⟨exports, by rw [heq]; exact OrderedMap.get?_insert_self ..⟩
  · obtain ⟨old, hold⟩ := h.known other ((List.mem_cons.1 hother).resolve_left heq)
    exact ⟨old, by rw [← hold]; exact OrderedMap.get?_insert_of_ne heq ..⟩

theorem baseEnv_prims_plain :
    (baseEnv.entries.all fun b => match b.2.value with
      | .prim _ p => p.isPlain
      | _ => true) = true := rfl

theorem baseEnv_within : baseEnv.Within {} := by
  intro b hb
  rcases baseEnv_entry hb with ⟨p, hvalue, _⟩ | ⟨t, hvalue⟩ | hvalue
  · have hplain := List.all_eq_true.1 baseEnv_prims_plain b hb
    rw [hvalue] at hplain ⊢
    exact .prim hplain
  · rw [hvalue]
    exact .type
  · rw [hvalue]
    refine .object fun b hb => ?_
    obtain rfl := List.mem_singleton.1 (Env.mem_ofList hb)
    exact .appForm

namespace Link

/-- At the top level of a module no one takes part. -/
theorem topLevel_meets (hev : ev.Casts {}) {env : Bindings} (henv : env.Within {}) (loc : Loc)
    (stmt : Surface.Stmt) :
    Meets (Cast.Excuses {}) (Bindings.Within {}) (topLevel ev loc env stmt) := by
  have hmode : Mode.Within {} moduleCtx.mode := rfl
  exact (hev.stmts hmode (by exact henv) [stmt]).bind fun _ hresult =>
    (Cast.passes _ (.ensure rfl)).bind fun _ _ => .pure hresult.env

theorem item_meets (hev : ev.Casts {}) (hlibs : libs.Ready seen) {m : ModuleState}
    (henv : m.env.Within {}) (hexports : m.exports.Within {}) {item : Surface.Item}
    (himport : ∀ loc source, item = .importFrom loc source →
      (sources.find? source).any seen.contains = true) :
    Meets (Cast.Excuses {}) (fun out => out.env.Within {} ∧ out.exports.Within {})
      (Link.item ev sources libs m item) := by
  cases item with
  | importFrom loc source =>
    -- the module has been seen, so it has been elaborated
    have hsource := himport loc source rfl
    cases hfile : sources.find? source with
    | none => simp [hfile] at hsource
    | some file =>
      obtain ⟨known, hknown⟩ := hlibs.known file (by simpa [hfile] using hsource)
      refine (Meets.orFail fun hnone => by simp [hfile, hknown] at hnone).bind fun imported hget => ?_
      have himported : imported.Within {} := hlibs.get? (by simpa [hfile] using hget)
      exact (Cast.merge henv himported).bind fun _ hout => .pure ⟨hout, hexports⟩
  | exported loc stmt =>
    exact (topLevel_meets hev henv loc stmt).bind fun out hout =>
      (Cast.merge hexports (hout.difference m.env)).bind fun _ hmore => .pure ⟨hout, hmore⟩
  | plain loc stmt =>
    exact (topLevel_meets hev henv loc stmt).bind fun _ hout => .pure ⟨hout, hexports⟩
  | foreign loc what => cases what <;> exact .fail (.ordinary rfl)

theorem items_meets (hev : ev.Casts {}) (hlibs : libs.Ready seen) {items : List Surface.Item} :
    ∀ {m : ModuleState}, m.env.Within {} → m.exports.Within {} →
      (∀ loc source, .importFrom loc source ∈ items →
        (sources.find? source).any seen.contains = true) →
      Meets (Cast.Excuses {}) (fun out => out.env.Within {} ∧ out.exports.Within {})
        (Link.items ev sources libs m items) := by
  induction items with
  | nil => exact fun henv hexports _ => .pure ⟨henv, hexports⟩
  | cons first rest ih =>
    intro m henv hexports himports
    refine (item_meets hev hlibs henv hexports fun loc source hfirst => ?_).bind fun out hout => ?_
    · exact himports loc source (by rw [hfirst]; exact List.mem_cons_self)
    · exact ih hout.1 hout.2 fun loc source hmem => himports loc source (List.mem_cons_of_mem _ hmem)

theorem initialEnv_meets (hlibs : libs.Ready seen) {m : ModuleSource}
    (hm : m.file = SourceTable.libraryId ∨ SourceTable.libraryId ∈ seen) :
    Meets (Cast.Excuses {}) (Bindings.Within {}) (initialEnv libs m) := by
  unfold initialEnv
  split
  · exact .pure baseEnv_within
  · rename_i hother
    obtain ⟨library, hlibrary⟩ := hlibs.known _ (hm.resolve_left hother)
    refine (Meets.orFail fun hnone => by simp [hlibrary] at hnone).bind fun out hget => .pure ?_
    intro b hb
    exact (Env.mem_setAll hb).elim (baseEnv_within b) (hlibs.get? hget b)

theorem afterHeader_meets (m : Surface.Module) (header : String) :
    Meets (Cast.Excuses {}) (fun rest => rest ⊆ m.items) (m.afterHeader header) := by
  unfold Surface.Module.afterHeader
  split
  · exact .fail (.ordinary rfl)
  · rename_i first rest hitems
    refine (Cast.passes _ (.ensure rfl)).bind fun _ _ => .pure ?_
    rw [hitems]
    exact List.subset_cons_self first rest

theorem moduleExports_meets (hev : ev.Casts {}) (hlibs : libs.Ready seen) {options : Options}
    {m : ModuleSource} (hm : m.file = SourceTable.libraryId ∨ SourceTable.libraryId ∈ seen)
    (himports : m.tree.imports.all (fun path => (sources.find? path).any seen.contains) = true) :
    Meets (Cast.Excuses {}) (Bindings.Within {}) (moduleExports ev options sources libs m) := by
  refine (afterHeader_meets m.tree options.header).bind fun rest hrest => ?_
  refine (initialEnv_meets hlibs hm).bind fun env henv => ?_
  refine (items_meets hev hlibs henv .empty fun loc source hmem => ?_).bind fun _ hout => .pure hout.2
  refine List.all_eq_true.1 himports source (List.mem_filterMap.2 ⟨_, hrest hmem, rfl⟩)

/-- All modules of a bundle in order are linked without blame. -/
theorem modules_meets (hev : ev.Casts {}) {options : Options} {bundle : Bundle} :
    ∀ {libs : Libraries} {seen : List Nat}, libs.Ready seen →
      (∀ m ∈ bundle, m.file = SourceTable.libraryId ∨ SourceTable.libraryId ∈ seen) →
      bundle.importsInOrder sources seen = true →
      Meets (Cast.Excuses {}) (fun out => ∃ files, (∀ m ∈ bundle, m.file ∈ files) ∧ seen ⊆ files ∧
        out.Ready files) (modules ev options sources libs bundle) := by
  induction bundle with
  | nil =>
    intro libs seen hlibs _ _
    exact .pure ⟨seen, by simp, List.Subset.refl _, hlibs⟩
  | cons m rest ih =>
    intro libs seen hlibs hfiles himports
    obtain ⟨hm, hothers⟩ := List.forall_mem_cons.1 hfiles
    simp only [Bundle.importsInOrder, Bool.and_eq_true] at himports
    refine (moduleExports_meets hev hlibs hm himports.1).bind fun exports hexports => ?_
    refine (ih (hlibs.insert m.file hexports) ?_ himports.2).imp ?_
    · exact fun other hother => (hothers other hother).imp_right (List.mem_cons_of_mem _)
    · rintro out ⟨files, hrest, hseen, hout⟩
      obtain ⟨hfile, hseen⟩ := List.cons_subset.1 hseen
      exact ⟨files, List.forall_mem_cons.2 ⟨hfile, hrest⟩, hseen, hout⟩

end Link

theorem Bundle.importsInOrder_mono {seen' : List Nat} {bundle : Bundle} (hsub : seen ⊆ seen')
    (h : bundle.importsInOrder sources seen = true) :
    bundle.importsInOrder sources seen' = true := by
  induction bundle generalizing seen seen' with
  | nil => rfl
  | cons m rest ih =>
    simp only [importsInOrder, Bool.and_eq_true, List.all_eq_true, Option.any_eq_true,
      List.contains_iff_mem] at h ⊢
    refine ⟨fun path hpath => ?_, ih (List.cons_subset_cons _ hsub) h.2⟩
    obtain ⟨file, hfile, hseen⟩ := h.1 path hpath
    exact ⟨file, hfile, hsub hseen⟩

/-- A bundle in order is linked without blame, and every one of its modules has exports. -/
theorem link_meets {fuel : Nat} {options : Options} {bundle : Bundle}
    (hbundle : bundle.InOrder sources) :
    Meets (Cast.Excuses {}) (fun libs => ∃ files, (∀ m ∈ bundle, m.file ∈ files) ∧ libs.Ready files)
      (link fuel options sources bundle) := by
  have hany : bundle.any (·.file == SourceTable.libraryId) = false := by
    simpa using hbundle.own
  have hempty : Libraries.Ready [] {} := ⟨by simp, by simp⟩
  have hcasts := evaluator_casts {} fuel
  unfold link Link.withLibrary
  rw [hany, if_neg (by simp)]
  -- the standard library comes first, and imports nothing
  refine (Link.moduleExports_meets hcasts hempty (.inl rfl) rfl).bind fun library hlibrary => ?_
  refine (Link.modules_meets hcasts (hempty.insert SourceTable.libraryId hlibrary)
    (fun _ _ => .inr List.mem_cons_self)
    (Bundle.importsInOrder_mono (List.nil_subset _) hbundle.imports)).imp ?_
  rintro out ⟨files, hfiles, _, hout⟩
  exact ⟨files, hfiles, hout⟩

/-! ### Compilation -/

variable {C : Cast} {loc : Loc} {env : Bindings}

theorem Participant.interactValue_within {p : Participant} (hp : p ∈ C.parts) :
    p.interactValue.Within C none := by
  refine .object fun b hb => ?_
  obtain ⟨⟨method, t⟩, hmem, rfl⟩ := List.mem_map.1 hb
  exact .interact ⟨p, hp, method, hmem⟩

theorem App.compile_meets {a : App} {names : List String} {fuel : Nat}
    (henv : Bindings.Within ⟨a.parts, names⟩ a.env) :
    Meets (Cast.Excuses ⟨a.parts, names⟩) (fun _ => True) (a.compile (evaluator fuel) loc) := by
  refine (App.views_meets (V := fun e => Bindings.Within _ e.2) (fun p hp =>
    Cast.bind henv (Participant.interactValue_within hp).bound) (by simp)).bind ?_
  rintro views ⟨hviews, _, hparts⟩
  refine Meets.restartIds.bind fun _ _ => ?_
  refine Meets.bind ((evaluator_casts _ fuel).stmts ?_ (by exact henv) a.body.stmts) fun _ _ =>
    .pure trivial
  refine ⟨fun {who} hplays => ?_, hviews⟩
  obtain ⟨p, hp, rfl⟩ := hplays
  exact Option.ne_none_iff_exists'.1 (hparts p hp)

/-- The entry module of the bundle exports the app as `top`. -/
def Bundle.Exports (fuel : Nat) (options : Options) (session : Session) (bundle : Bundle)
    (top : String) (a : App) : Prop :=
  ∃ libs exports loc tag, (linkBundle fuel options session bundle).1 = .ok libs ∧
    (bundle.getLast?.bind fun entry => libs.get? entry.file) = some exports ∧
    exports.find? top = some (.pub (.prim loc (.app tag a)))

/-- The stop is ordinary, or the cast of the app that the bundle exports excuses it. -/
def Bundle.Excuses (fuel : Nat) (options : Options) (session : Session) (bundle : Bundle)
    (top : String) (stop : Stop) : Prop :=
  stop.isOrdinary = true ∨ ∃ a names, bundle.Exports fuel options session top a ∧
    (∀ name ∈ names, ∃ tag p, a.env.find? name = some (.secret (.participant tag p))) ∧
    Cast.Excuses ⟨a.parts, names⟩ stop

/-- Without participants nothing is excused that is not ordinary. -/
theorem Cast.Excuses.isOrdinary {f : Fault} (h : Cast.Excuses {} (.fault f)) : f.isOrdinary = true := by
  cases h with
  | ordinary h => exact h
  | notAFunction hoffered =>
    obtain ⟨p, hp, _⟩ := hoffered
    exact absurd hp List.not_mem_nil
  | notAParticipant hname => exact absurd hname List.not_mem_nil

theorem Elaboration.perform_fault {α : Type} {e : Elaboration} {x : Eval α} {f : Fault}
    (h : (e.perform x).1 = .error (.fault f)) :
    ∃ s', x.runFrom e.supply = (.error (.fault f), s') := by
  unfold Elaboration.perform at h
  split at h
  · rename_i f' s' hrun
    cases h
    exact ⟨s', hrun⟩
  · rename_i result s' _ hrun
    exact ⟨s', by rw [hrun]; exact congrArg (·, s') h⟩

theorem Elaboration.perform_ok {α : Type} {e : Elaboration} {x : Eval α} {a : α} {s' : Supply}
    (h : x.Yields e.supply a s') : (e.perform x).1 = .ok a := by
  unfold Elaboration.perform
  rw [show x.runFrom e.supply = (.ok a, s') from h]

/-- The program of the app that is compiled stays within the app's cast. -/
theorem compileBundle_excused {fuel : Nat} {options : Options} {session : Session} {bundle : Bundle}
    {top : String} {f : Fault} (hbundle : bundle.InOrder session.sources)
    (hrun : (compileBundle fuel options session bundle top).1 = .error (.fault f)) :
    bundle.Excuses fuel options session top (.fault f) := by
  obtain ⟨s', hrun⟩ := Elaboration.perform_fault hrun
  have hlast : bundle.getLast? = some (bundle.getLast hbundle.entry) :=
    List.getLast?_eq_some_getLast hbundle.entry
  simp only [compile, hlast, Eval.orFail, pure_bind] at hrun
  have hlink := @link_meets session.sources fuel options bundle hbundle
  rcases runFrom_bind_eq_error_iff.1 hrun with hfault | ⟨libs, middle, hlibs, hrest⟩
  · exact .inl (hlink.stop hfault).isOrdinary
  · obtain ⟨files, hfiles, hready⟩ := hlink.result hlibs
    obtain ⟨exports, hexports⟩ := hready.known _ (hfiles _ (List.getLast_mem hbundle.entry))
    rw [hexports] at hrest
    simp only [pure_bind] at hrest
    refine Meets.stop (F := bundle.Excuses fuel options session top) (Q := fun _ => True) ?_ hrest
    refine (Routine.yields (exports.lookup_routine top) fun _ => .inl).bind ?_
    rintro sv ⟨_, _, hlookup⟩
    refine (Routine.yields sv.requirePublic_routine fun _ => .inl).bind ?_
    rintro value ⟨_, _, hpublic⟩
    obtain ⟨hfind, _⟩ := Bindings.lookup_yields.1 hlookup
    obtain ⟨rfl, _⟩ := SecValue.requirePublic_yields.1 hpublic
    split
    · rename_i appLoc tag a
      have happ := (hready.get? hexports).find? hfind
      cases happ with
      | prim hplain => cases hplain
      | app hnames henv =>
        rename_i names
        refine (App.compile_meets henv).mono (fun f hf => .inr ⟨a, names, ?_, hnames, hf⟩) fun _ h => h
        exact ⟨libs, exports, appLoc, tag, Elaboration.perform_ok hlibs, by simp [hlast, hexports], hfind⟩
    · exact .fail (.inl rfl)

/-- The compiler blames itself for two mistakes of programs only. A bundle that is not empty, brings no
standard library of its own and imports modules that come before is linked without an internal
fault. If the app that is compiled stops with one, then something that a frontend offers was applied
although its type is no function, or the name of one of the app's participants did not stand for a
participant where a round began. -/
theorem internal_faults_blame_frontends_or_names {fuel : Nat} {options : Options} {session : Session}
    {bundle : Bundle} {top : String} {f : Fault} (hbundle : bundle.InOrder session.sources)
    (hrun : (compileBundle fuel options session bundle top).1 = .error (.fault f)) :
    f.kind.family ≠ .internal ∨ ∃ a, bundle.Exports fuel options session top a ∧
      ((∃ p ∈ a.parts, ∃ method t loc, (method, t) ∈ p.interface ∧ (∀ dom rng, t ≠ .func dom rng) ∧
          f = .notAFunctionType loc t.full) ∨
        ∃ name tag p loc, a.env.find? name = some (.secret (.participant tag p)) ∧
          f = .notAParticipant loc name) := by
  rcases compileBundle_excused hbundle hrun with hordinary | ⟨a, names, happ, hnames, hf⟩
  · exact .inl (of_decide_eq_true hordinary)
  · cases hf with
    | ordinary hordinary => exact .inl (of_decide_eq_true hordinary)
    | notAFunction hoffered hdata =>
      obtain ⟨p, hp, method, hmem⟩ := hoffered
      exact .inr ⟨a, happ, .inl ⟨p, hp, method, _, _, hmem, hdata, rfl⟩⟩
    | notAParticipant hname =>
      obtain ⟨tag, p, hfind⟩ := hnames _ hname
      exact .inr ⟨a, happ, .inr ⟨_, tag, p, _, hfind, rfl⟩⟩

namespace Surface

/-- The frontend offers a number, and the participant applies it. -/
def applyingNumber : Bundle :=
  offeringApp (name "UInt256")
    [.expr here (method (name "A") "only" [thunk [define "y" (method (name "interact") "x" [])]])]

/-- A module with the given statements in front of an app, whose one participant is called `A`. -/
def appAfter (file : Nat) (items : List Item) (body : List Stmt) : ModuleSource :=
  let app : Expr := method (name "Reach") "App"
    [.object here [], .array here [.array here [.string here "'A'", .object here []]],
     .arrow here ["A"] ⟨here, body⟩]
  ⟨file, ⟨here, .plain here (.expr here (.string here "'reach 0.1'")) ::
    (items ++ [.exported here (define "main" app)])⟩⟩

/-- A function in which a participant publishes nothing. -/
def takingRound (formals : List String) : Stmt :=
  define "f" (.arrow here formals ⟨here,
    [.expr here (method (name "P") "publish" []), .expr here (apply "commit" [])]⟩)

/-- A function of the module takes a round for `A`, and calls something else `A`. -/
def formalTakesName : Bundle :=
  [appAfter 1 [.plain here (takingRound ["P", "A"])]
    [.expr here (apply "f" [name "A", number "5"])]]

/-- A function that takes a round for `A` is imported from a module with an `A` of its own. -/
def importedTakesName : Bundle :=
  [⟨1, ⟨here, [.plain here (.expr here (.string here "'reach 0.1'")),
      .plain here (define "A" (number "5")), .exported here (takingRound ["P"])]⟩⟩,
   appAfter 2 [.importFrom here "lib.rsh"] [.expr here (apply "f" [name "A"])]]

end Surface

/-- The fault that a run stopped with, if it stopped with one. -/
def Eval.faultOf {α : Type} : Except Stop α → Option Fault
  | .error (.fault f) => some f
  | _ => none

theorem Eval.exists_fault_of_any {α : Type} {x : Except Stop α} {p : Fault → Bool}
    (h : (faultOf x).any p = true) : ∃ f, x = .error (.fault f) ∧ p f = true := by
  unfold faultOf at h
  split at h
  · exact ⟨_, rfl, h⟩
  · simp at h

theorem Eval.exists_ok_and_fault {α β : Type} {x : Except Stop α} {y : Except Stop β}
    {kind : FaultKind} (hx : x.toOption.isSome = true)
    (hy : (faultOf y).any (fun f => decide (f.kind = kind)) = true) :
    (∃ a, x = .ok a) ∧ ∃ f, y = .error (.fault f) ∧ f.kind = kind := by
  obtain ⟨f, hf, hkind⟩ := exists_fault_of_any hy
  cases x with
  | ok a => exact ⟨⟨a, rfl⟩, f, hf, of_decide_eq_true hkind⟩
  | error _ => cases hx

theorem Surface.importedTakesName_inOrder :
    importedTakesName.InOrder { paths := ["lib.rsh", "main.rsh"] } :=
  ⟨by simp [importedTakesName], by decide, by decide⟩

theorem importedTakesName_blames_name :
    ∃ f, (compileBundle 30 {} { sources := { paths := ["lib.rsh", "main.rsh"] } }
        Surface.importedTakesName "main").1 = .error (.fault f) ∧
      ∃ a, Surface.importedTakesName.Exports 30 {} { sources := { paths := ["lib.rsh", "main.rsh"] } }
          "main" a ∧
        ((∃ p ∈ a.parts, ∃ method t loc, (method, t) ∈ p.interface ∧
            (∀ dom rng, t ≠ .func dom rng) ∧ f = .notAFunctionType loc t.full) ∨
          ∃ name tag p loc, a.env.find? name = some (.secret (.participant tag p)) ∧
            f = .notAParticipant loc name) := by
  obtain ⟨f, hf, hinternal⟩ := exists_fault_of_any (p := fun f => f.kind.family = .internal)
    (x := (compileBundle 30 {} { sources := { paths := ["lib.rsh", "main.rsh"] } }
      Surface.importedTakesName "main").1) (by decide +kernel)
  refine ⟨f, hf, ?_⟩
  exact (internal_faults_blame_frontends_or_names Surface.importedTakesName_inOrder hf).resolve_left
    (not_not_intro (of_decide_eq_true hinternal))

/-- Mistakes of programs that the compiler blames itself for: a number that a frontend offers is
applied, a formal takes the name of a participant, and so does a constant of an imported module. -/
theorem mistakes_fault_internally :
    (Surface.applyingNumber.InOrder {} ∧ ∃ f, (compileBundle 30 {} {} Surface.applyingNumber
      "main").1 = .error (.fault f) ∧ f.kind.family = .internal) ∧
    (Surface.formalTakesName.InOrder {} ∧ ∃ f, (compileBundle 30 {} {} Surface.formalTakesName
      "main").1 = .error (.fault f) ∧ f.kind.family = .internal) ∧
    Surface.importedTakesName.InOrder { paths := ["lib.rsh", "main.rsh"] } ∧
      ∃ f, (compileBundle 30 {} { sources := { paths := ["lib.rsh", "main.rsh"] } }
        Surface.importedTakesName "main").1 = .error (.fault f) ∧ f.kind.family = .internal := by
  have hcheck : ∀ {session : Session} {bundle : Bundle},
      (faultOf (compileBundle 30 {} session bundle "main").1).any (·.kind.family = .internal) = true →
      ∃ f, (compileBundle 30 {} session bundle "main").1 = .error (.fault f) ∧
        f.kind.family = .internal := by
    intro session bundle h
    obtain ⟨f, hf, hinternal⟩ := exists_fault_of_any h
    exact ⟨f, hf, of_decide_eq_true hinternal⟩
  refine ⟨⟨⟨?_, by decide, by decide⟩, hcheck (by decide +kernel)⟩,
    ⟨⟨?_, by decide, by decide⟩, hcheck (by decide +kernel)⟩,
    Surface.importedTakesName_inOrder, hcheck (by decide +kernel)⟩
  · simp [Surface.applyingNumber, Surface.offeringApp]
  · simp [Surface.formalTakesName]

end Choreography
