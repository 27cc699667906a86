import Choreography.Proofs.Blame
import Choreography.Proofs.MirroredStatements

/-!
The order of modules. A module is elaborated against the exports of the modules it imports and of the
standard library; what the bundle holds besides decides only which tags are still unused. So two
neighbours of which neither imports the other may change places: all exports stay what they are, up to
one renaming of identities that exchanges the tags drawn by the two.
-/

namespace Choreography

open Eval

/-! ### Maps -/

namespace OrderedMap

variable {κ α β : Type}

def map (f : α → β) (m : OrderedMap κ α) : OrderedMap κ β := ⟨m.entries.map fun e => (e.1, f e.2)⟩

theorem get?_map [DecidableEq κ] (f : α → β) (m : OrderedMap κ α) (k : κ) :
    (m.map f).get? k = (m.get? k).map f := by
  simp [get?, map, List.find?_map, Function.comp_def]

theorem map_insert [DecidableEq κ] [LT κ] [DecidableLT κ] (f : α → β) (m : OrderedMap κ α) (k : κ)
    (a : α) : (m.insert k a).map f = (m.map f).insert k (f a) := by
  obtain ⟨entries⟩ := m
  simp only [map, insert, mk.injEq]
  induction entries with
  | nil => rfl
  | cons e rest ih =>
    simp only [place, List.map_cons]
    split
    · rfl
    · split
      · rfl
      · rw [List.map_cons, ih]

theorem insert_comm {k k' : Nat} (hne : k ≠ k') (m : OrderedMap Nat α) (a b : α) :
    (m.insert k a).insert k' b = (m.insert k' b).insert k a := by
  obtain ⟨entries⟩ := m
  simp only [insert, mk.injEq]
  induction entries with
  | nil => grind [place]
  | cons e rest ih => grind [place]

end OrderedMap

variable {ρ : Tag → Tag} {ev : Evaluator} {sources : SourceTable} {options : Options}

def Libraries.rename (ρ : Tag → Tag) (libs : Libraries) : Libraries := libs.map (Bindings.rename ρ)

def ModuleState.rename (ρ : Tag → Tag) (m : ModuleState) : ModuleState :=
  { env := m.env.rename ρ, exports := m.exports.rename ρ }

/-- The base environment holds no identity but that of the app form. -/
theorem baseEnv_rename (hzero : ρ 0 = 0) : baseEnv.rename ρ = baseEnv := by
  have happ : SecValue.rename ρ (.pub (.object .synthetic
        (.ofList [("App", .pub (.form .synthetic 0 .app))]))) =
      .pub (.object .synthetic (.ofList [("App", .pub (.form .synthetic 0 .app))])) := by
    simp only [SecValue.rename, Labelled.pub, Value.rename_object, Bindings.rename, Env.ofList,
      Env.map_setAll, List.map_cons, List.map_nil, Value.rename, Form.rename, hzero]
    rfl
  rw [Bindings.rename, baseEnv, Env.ofList, Env.map_setAll]
  simp only [List.map_cons, List.map_nil, happ]
  rfl

namespace Link

/-! ### Renaming -/

theorem topLevel_mirrors (hev : ev.Mirrored ρ) (loc : Loc) (env : Bindings) (stmt : Surface.Stmt) :
    Mirrors ρ (Bindings.rename ρ) (topLevel ev loc env stmt) (topLevel ev loc (env.rename ρ) stmt) :=
  Mirrors.bind (hev.stmts ⟨rfl, rfl⟩ loc (by exact rfl) [stmt]) fun result =>
    (Mirrors.ensure (by simp [Outcome.rename])).bind fun _ => .pure rfl

theorem dependency_mirrors (libs : Libraries) (loc : Loc) (source : String) :
    Mirrors ρ (Bindings.rename ρ) (dependency sources libs loc source)
      (dependency sources (libs.rename ρ) loc source) := by
  refine .orFail ?_
  cases sources.find? source with
  | none => rfl
  | some file => exact OrderedMap.get?_map _ libs file

theorem item_mirrors (hev : ev.Mirrored ρ) (libs : Libraries) (m : ModuleState)
    (item : Surface.Item) :
    Mirrors ρ (ModuleState.rename ρ) (Link.item ev sources libs m item)
      (Link.item ev sources (libs.rename ρ) (m.rename ρ) item) := by
  cases item with
  | importFrom loc source =>
    exact (dependency_mirrors libs loc source).bind fun imported =>
      (Bindings.merge_mirrors m.env imported).bind fun _ => .pure rfl
  | exported loc stmt =>
    refine (topLevel_mirrors hev loc m.env stmt).bind fun env => ?_
    refine Mirrors.bind (.of_eq (Bindings.merge_mirrors m.exports _) ?_) fun _ => .pure rfl
    exact congrArg (Bindings.merge _ loc) (Env.map_difference _ env m.env)
  | plain loc stmt => exact (topLevel_mirrors hev loc m.env stmt).bind fun _ => .pure rfl
  | foreign loc what => cases what <;> exact .fail

theorem items_mirrors (hev : ev.Mirrored ρ) (libs : Libraries) (items : List Surface.Item) :
    ∀ m : ModuleState, Mirrors ρ (ModuleState.rename ρ) (Link.items ev sources libs m items)
      (Link.items ev sources (libs.rename ρ) (m.rename ρ) items) := by
  induction items with
  | nil => exact fun _ => .pure rfl
  | cons first rest ih => exact fun m => (item_mirrors hev libs m first).bind ih

theorem initialEnv_mirrors (hzero : ρ 0 = 0) (libs : Libraries) (m : ModuleSource) :
    Mirrors ρ (Bindings.rename ρ) (initialEnv libs m) (initialEnv (libs.rename ρ) m) := by
  unfold initialEnv
  split
  · exact .pure (baseEnv_rename hzero)
  · refine Mirrors.bind (.orFail (OrderedMap.get?_map _ libs _)) fun library => .pure ?_
    rw [Bindings.rename, Env.map_setAll]
    exact congrArg (Env.setAll · _) (baseEnv_rename hzero)

theorem afterHeader_mirrors (m : Surface.Module) (header : String) :
    Mirrors ρ id (m.afterHeader header) (m.afterHeader header) := by
  unfold Surface.Module.afterHeader
  split
  · exact .fail
  · exact (Mirrors.ensure id).bind fun _ => .pure rfl

theorem moduleExports_mirrors (hev : ev.Mirrored ρ) (hzero : ρ 0 = 0) (libs : Libraries)
    (m : ModuleSource) :
    Mirrors ρ (Bindings.rename ρ) (moduleExports ev options sources libs m)
      (moduleExports ev options sources (libs.rename ρ) m) :=
  (afterHeader_mirrors m.tree _).bind fun rest => (initialEnv_mirrors hzero libs m).bind fun env =>
    (items_mirrors hev libs rest { env }).bind fun _ => .pure rfl

theorem modules_mirrors (hev : ev.Mirrored ρ) (hzero : ρ 0 = 0) (bundle : Bundle) :
    ∀ libs : Libraries, Mirrors ρ (Libraries.rename ρ) (modules ev options sources libs bundle)
      (modules ev options sources (libs.rename ρ) bundle) := by
  induction bundle with
  | nil => exact fun _ => .pure rfl
  | cons m rest ih =>
    intro libs
    refine (moduleExports_mirrors hev hzero libs m).bind fun exports => .of_eq (ih _) ?_
    rw [Libraries.rename, OrderedMap.map_insert]
    rfl

/-! ### What a module sees -/

theorem items_congr {libs libs' : Libraries} {items : List Surface.Item}
    (h : ∀ loc source, .importFrom loc source ∈ items →
      (sources.find? source).bind libs.get? = (sources.find? source).bind libs'.get?) :
    ∀ m : ModuleState, Link.items ev sources libs m items = Link.items ev sources libs' m items := by
  induction items with
  | nil => exact fun _ => rfl
  | cons first rest ih =>
    intro m
    have hitem : Link.item ev sources libs m first = Link.item ev sources libs' m first := by
      cases first with
      | importFrom loc source =>
        simp only [Link.item, dependency, h loc source List.mem_cons_self]
      | foreign loc what => cases what <;> rfl
      | _ => rfl
    simp only [Link.items, hitem]
    exact congrArg _ (funext (ih fun loc source hmem => h loc source (List.mem_cons_of_mem _ hmem)))

end Link

/-- Whether a module imports the file. -/
def ModuleSource.importsFile (sources : SourceTable) (m : ModuleSource) (file : Nat) : Bool :=
  m.tree.imports.any fun path => sources.find? path == some file

namespace Link

/-- What is done after the header matters only for the items that the module has. -/
theorem afterHeader_bind_congr {α : Type} {m : Surface.Module} {header : String}
    {k k' : List Surface.Item → Eval α} (h : ∀ rest ⊆ m.items, k rest = k' rest) :
    m.afterHeader header >>= k = m.afterHeader header >>= k' := by
  unfold Surface.Module.afterHeader
  cases hitems : m.items with
  | nil => rfl
  | cons first rest =>
    have hrest : rest ⊆ m.items := hitems ▸ List.subset_cons_self first rest
    simp only [bind_assoc, pure_bind, h rest hrest]

/-- The exports of a file that a module does not import make no difference to it. -/
theorem moduleExports_insert {m : ModuleSource} {file : Nat} (hfile : file ≠ SourceTable.libraryId)
    (himports : m.importsFile sources file = false) (libs : Libraries) (exports : Bindings) :
    moduleExports ev options sources (libs.insert file exports) m =
      moduleExports ev options sources libs m := by
  have hinitial : initialEnv (libs.insert file exports) m = initialEnv libs m := by
    simp only [initialEnv, OrderedMap.get?_insert_of_ne hfile.symm]
  have hseen : ∀ loc source, .importFrom loc source ∈ m.tree.items →
      (sources.find? source).bind (libs.insert file exports).get? =
        (sources.find? source).bind libs.get? := by
    intro loc source hmem
    have hother : sources.find? source ≠ some file := by
      simp only [ModuleSource.importsFile, Surface.Module.imports, List.any_eq_false,
        List.mem_filterMap, beq_iff_eq] at himports
      exact himports source ⟨_, hmem, rfl⟩
    cases hfind : sources.find? source with
    | none => rfl
    | some other =>
      exact OrderedMap.get?_insert_of_ne (fun heq => hother (by rw [hfind, heq])) libs exports
  unfold moduleExports
  refine afterHeader_bind_congr fun rest hrest => ?_
  rw [hinitial]
  simp only [items_congr fun loc source hmem => hseen loc source (hrest hmem)]

theorem modules_append (before after : Bundle) : ∀ libs : Libraries,
    modules ev options sources libs (before ++ after) =
      modules ev options sources libs before >>= fun libs => modules ev options sources libs after := by
  induction before with
  | nil => exact fun _ => rfl
  | cons m rest ih =>
    intro libs
    simp only [List.cons_append, modules, ih, bind_assoc]

end Link

/-! ### Exchanging two modules -/

/-- Exchanges the `a` tags from `start` on with the `b` tags after them. -/
def exchange (start a b : Nat) (tag : Tag) : Tag :=
  if tag < start then tag
  else if tag < start + a then tag + b
  else if tag < start + a + b then tag - a
  else tag

section Exchange

variable (start a b : Nat)

theorem exchange_injective : Function.Injective (exchange start a b) := by
  intro x y h
  simp only [exchange] at h
  grind

theorem exchange_before {tag : Nat} (h : tag < start) : exchange start a b tag = tag := if_pos h

theorem exchange_first {i : Nat} (h : i < a) : exchange start a b (start + i) = start + b + i := by
  grind [exchange]

theorem exchange_second {i : Nat} (h : i < b) : exchange start a b (start + a + i) = start + i := by
  grind [exchange]

theorem exchange_after (i : Nat) : exchange start a b (start + a + b + i) = start + a + b + i := by
  grind [exchange]

end Exchange

namespace Link

variable {libs : Libraries} {s s' : Supply}

/-- Two neighbours of which neither imports the other change places. Each draws as many tags as before,
the second now those that the first drew; everything after them goes on as it did. -/
theorem modules_exchange (hev : ∀ ρ, ev.Mirrored ρ) {m m' : ModuleSource} (hne : m.file ≠ m'.file)
    (hm : m.file ≠ SourceTable.libraryId) (hm' : m'.file ≠ SourceTable.libraryId)
    (himports : m.importsFile sources m'.file = false)
    (himports' : m'.importsFile sources m.file = false) {before after : Bundle}
    (hpositive : 0 < s.nextTag)
    (hrun : (modules ev options sources {} (before ++ m :: m' :: after)).Yields s libs s') :
    ∃ ρ t', Function.Injective ρ ∧
      (modules ev options sources {} (before ++ m' :: m :: after)).Yields s (libs.rename ρ) t' := by
  simp only [modules_append, modules, yields_bind] at hrun ⊢
  obtain ⟨libs₀, s₀, hbefore, e, s₁, hfirst, e', s₂, hsecond, hafter⟩ := hrun
  rw [moduleExports_insert hm himports'] at hsecond
  have hstart := (modules_mirrors (hev id) rfl before {}).grows hbefore
  obtain ⟨a, ha⟩ := Nat.exists_eq_add_of_le ((moduleExports_mirrors (hev id) rfl _ _).grows hfirst)
  obtain ⟨b, hb⟩ := Nat.exists_eq_add_of_le ((moduleExports_mirrors (hev id) rfl _ _).grows hsecond)
  let ρ := exchange s₀.nextTag a b
  have hzero : ρ 0 = 0 := exchange_before _ a b (by grind)
  -- what comes before holds no tag that is exchanged
  have hfixed : libs₀.rename ρ = libs₀ := by
    obtain ⟨_, hsame, _⟩ := (modules_mirrors (hev ρ) hzero before {}).run hbefore s
      fun i hi => exchange_before _ a b hi
    exact (hsame.unique hbefore).1
  obtain ⟨t₁, hsecond', htags₁⟩ := (moduleExports_mirrors (hev ρ) hzero libs₀ m').run hsecond s₀
    fun i hi => by
      rw [ha]
      exact exchange_second _ a b (by grind)
  obtain ⟨t₂, hfirst', htags₂⟩ := (moduleExports_mirrors (hev ρ) hzero libs₀ m).run hfirst t₁
    fun i hi => by
      have hshift : ρ (s₀.nextTag + i) = s₀.nextTag + b + i := exchange_first _ a b (by grind)
      grind
  obtain ⟨t₃, hafter', _⟩ := (modules_mirrors (hev ρ) hzero after _).run hafter t₂ fun i _ => by
    have hshift : ρ (s₀.nextTag + a + b + i) = s₀.nextTag + a + b + i := exchange_after _ a b i
    grind
  rw [hfixed] at hsecond' hfirst'
  rw [← moduleExports_insert hm' himports libs₀ (e'.rename ρ)] at hfirst'
  rw [Libraries.rename, OrderedMap.map_insert, OrderedMap.map_insert, ← Libraries.rename, hfixed,
    OrderedMap.insert_comm hne] at hafter'
  exact ⟨ρ, t₃, exchange_injective _ a b, libs₀, s₀, hbefore, _, t₁, hsecond', _, t₂, hfirst', hafter'⟩

/-- The standard library stands in front of a bundle whatever the order of its modules. -/
theorem withLibrary_exchange (options : Options) (m m' : ModuleSource) (before after : Bundle) :
    ∃ front : Bundle, withLibrary options (before ++ m :: m' :: after) = front ++ m :: m' :: after ∧
      withLibrary options (before ++ m' :: m :: after) = front ++ m' :: m :: after := by
  have hown : (before ++ m' :: m :: after).any (·.file == SourceTable.libraryId) =
      (before ++ m :: m' :: after).any (·.file == SourceTable.libraryId) := by
    simp [Bool.or_left_comm]
  unfold withLibrary
  rw [hown]
  split
  · exact ⟨before, rfl, rfl⟩
  · exact ⟨_ :: before, rfl, rfl⟩

end Link

/-- Linking goes through with the two exchanged, and gives the same up to a renaming. -/
theorem linkBundle_exchange {fuel : Nat} {session : Session} {m m' : ModuleSource}
    (hne : m.file ≠ m'.file) (hm : m.file ≠ SourceTable.libraryId)
    (hm' : m'.file ≠ SourceTable.libraryId)
    (himports : m.importsFile session.sources m'.file = false)
    (himports' : m'.importsFile session.sources m.file = false) {before after : Bundle}
    {libs : Libraries}
    (hlink : (linkBundle fuel options session (before ++ m :: m' :: after)).1 = .ok libs) :
    ∃ ρ, Function.Injective ρ ∧
      (linkBundle fuel options session (before ++ m' :: m :: after)).1 = .ok (libs.rename ρ) := by
  obtain ⟨s', hrun⟩ := Elaboration.perform_yields hlink
  obtain ⟨front, hfront, hfront'⟩ := Link.withLibrary_exchange options m m' before after
  rw [link, hfront] at hrun
  obtain ⟨ρ, t', hinjective, hrun'⟩ := Link.modules_exchange (fun ρ => evaluator_mirrored ρ fuel) hne hm
    hm' himports himports' Nat.one_pos hrun
  have hlinked : (link fuel options session.sources (before ++ m' :: m :: after)).Yields {}
      (libs.rename ρ) t' := by
    rw [link, hfront']
    exact hrun'
  exact ⟨ρ, hinjective, Elaboration.perform_ok hlinked⟩

/-- What is shown of the exports of each file: their names in order, with levels and texts. -/
def Libraries.listing (libs : Libraries) : List (Nat × List (String × Level × String)) :=
  libs.entries.map fun e => (e.1, e.2.entries.map fun b => (b.1, b.2.level, b.2.value.text))

theorem Libraries.listing_rename (libs : Libraries) : (libs.rename ρ).listing = libs.listing := by
  simp [Libraries.listing, Libraries.rename, OrderedMap.map, Bindings.rename, Env.map,
    Function.comp_def, Value.text_rename]

/-- Two neighbours in a bundle of which neither imports the other may change places: the bundle links
in the one order if and only if it links in the other, with the same exports up to one renaming of
identities that keeps them apart. Types are the same on both sides, and so is all that is shown. -/
theorem linkBundle_order_irrelevant {fuel : Nat} {options : Options} {session : Session}
    {m m' : ModuleSource} (hne : m.file ≠ m'.file) (hm : m.file ≠ SourceTable.libraryId)
    (hm' : m'.file ≠ SourceTable.libraryId)
    (himports : m.importsFile session.sources m'.file = false)
    (himports' : m'.importsFile session.sources m.file = false) (before after : Bundle) :
    ((∃ libs, (linkBundle fuel options session (before ++ m :: m' :: after)).1 = .ok libs) ↔
      ∃ libs, (linkBundle fuel options session (before ++ m' :: m :: after)).1 = .ok libs) ∧
    ∀ libs libs', (linkBundle fuel options session (before ++ m :: m' :: after)).1 = .ok libs →
      (linkBundle fuel options session (before ++ m' :: m :: after)).1 = .ok libs' →
      (∃ ρ, Function.Injective ρ ∧ libs' = libs.rename ρ) ∧ libs'.listing = libs.listing := by
  refine ⟨⟨fun ⟨libs, hlink⟩ => ?_, fun ⟨libs, hlink⟩ => ?_⟩, fun libs libs' hlink hlink' => ?_⟩
  · obtain ⟨ρ, _, hlink'⟩ := linkBundle_exchange hne hm hm' himports himports' hlink
    exact ⟨_, hlink'⟩
  · obtain ⟨ρ, _, hlink'⟩ := linkBundle_exchange hne.symm hm' hm himports' himports hlink
    exact ⟨_, hlink'⟩
  · obtain ⟨ρ, hinjective, hrenamed⟩ := linkBundle_exchange hne hm hm' himports himports' hlink
    obtain rfl : libs' = libs.rename ρ := Except.ok.inj (hlink'.symm.trans hrenamed)
    exact ⟨⟨ρ, hinjective, rfl⟩, libs.listing_rename⟩

/-- A module that exports a function of its own. -/
def Surface.functionModule (file : Nat) (f : String) : ModuleSource :=
  ⟨file, ⟨here, [.plain here (.expr here (.string here "'reach 0.1'")),
    .exported here (define f (thunk []))]⟩⟩

/-- A module that imports two others, and exports what they are. -/
def Surface.pairModule : ModuleSource :=
  ⟨3, ⟨here, [.plain here (.expr here (.string here "'reach 0.1'")),
    .importFrom here "f.rsh", .importFrom here "g.rsh",
    .exported here (define "pair" (.array here [name "f", name "g"]))]⟩⟩

def Surface.pairSession : Session := { sources := ⟨["f.rsh", "g.rsh", "pair.rsh"]⟩ }

/-- The two functions change places; the module after them sees both. -/
theorem functionModules_order_irrelevant :
    ∃ libs libs',
      (linkBundle 10 {} Surface.pairSession ([] ++ Surface.functionModule 1 "f" ::
        Surface.functionModule 2 "g" :: [Surface.pairModule])).1 = .ok libs ∧
      (linkBundle 10 {} Surface.pairSession ([] ++ Surface.functionModule 2 "g" ::
        Surface.functionModule 1 "f" :: [Surface.pairModule])).1 = .ok libs' ∧
      (∃ ρ, Function.Injective ρ ∧ libs' = libs.rename ρ) ∧ libs'.listing = libs.listing := by
  obtain ⟨hlinks, hsame⟩ := @linkBundle_order_irrelevant 10 {} Surface.pairSession
    (Surface.functionModule 1 "f") (Surface.functionModule 2 "g") (by decide) (by decide) (by decide)
    (by decide) (by decide) [] [Surface.pairModule]
  obtain ⟨libs, hlink, _⟩ := exists_ok_of_any (f := fun _ => true)
    (x := (linkBundle 10 {} Surface.pairSession ([] ++ Surface.functionModule 1 "f" ::
        Surface.functionModule 2 "g" :: [Surface.pairModule])).1) (by decide +kernel)
  obtain ⟨libs', hlink'⟩ := hlinks.1 ⟨libs, hlink⟩
  exact ⟨libs, libs', hlink, hlink', hsame libs libs' hlink hlink'⟩

end Choreography
