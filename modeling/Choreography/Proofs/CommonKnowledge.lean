import Choreography.Proofs.PrivateViews

/-!
What participants know after a round. When a round opens, everyone but the sender learns the
messages under new variables; when it is committed, everyone learns what was bound in it. Whatever a
participant knew before, it still knows, but for the name that stands for the sender: that now
carries the sender's address.
-/

namespace Choreography

open Eval Ir

variable {s s' : Supply} {loc : Loc} {ctx : Ctx} {env : Bindings} {ev : Evaluator}

namespace Point

variable {p q : Point} {stmt : Surface.Stmt}

/-- One environment after another: new names stand after those that were bound. -/
structure Extends (env out : Bindings) (names : List String) (more : List (String × SecValue)) :
    Prop where
  entries : out.entries = env.entries ++ more
  fresh : ∀ b ∈ more, env.find? b.1 = none
  names : more.map (·.1) = names

theorem Extends.find? {env out : Bindings} {names : List String} {more : List (String × SecValue)}
    (h : Extends env out names more) (x : String) :
    out.find? x = (env.find? x).or (more.lookup x) :=
  Env.find?_of_append h.entries x

/-- A statement that passes binds its names in the shared environment and changes nothing else. -/
theorem Passes.effect (h : p.Passes stmt q) :
    p.stmts = stmt :: q.stmts ∧ q.ctx = p.ctx ∧
      ∃ more, Extends p.scope.env q.scope.env stmt.binds more := by
  cases h with
  | declare hdecls hmerge =>
    have hbinds := Evaluator.declsFrom_binds.result hdecls
    exact ⟨rfl, rfl, _, (Bindings.merge_yields hmerge).1, Bindings.merge_fresh hmerge,
      by simpa [Surface.Stmt.binds] using hbinds⟩
  | define _ _ hbind =>
    obtain ⟨hnew, rfl, _⟩ := Bindings.bind_yields.1 hbind
    exact ⟨rfl, rfl, _, rfl, by simpa [Env.contains_eq_false] using hnew, rfl⟩
  | compute hexpr =>
    refine ⟨rfl, rfl, [], by simp, by simp, ?_⟩
    cases stmt <;> simp_all [Surface.Stmt.expression?, Surface.Stmt.binds]

theorem PassesAll.effect {stmts : List Surface.Stmt} (h : p.PassesAll stmts q) :
    p.stmts = stmts ++ q.stmts ∧ q.ctx = p.ctx ∧
      ∃ more, Extends p.scope.env q.scope.env (stmts.flatMap (·.binds)) more := by
  induction h with
  | nil => exact ⟨rfl, rfl, [], by simp, by simp, rfl⟩
  | cons hfirst _ ih =>
    obtain ⟨hstmts, hctx, more, hmore⟩ := hfirst.effect
    obtain ⟨hstmts', hctx', more', hmore'⟩ := ih
    refine ⟨by rw [hstmts, hstmts', List.cons_append], hctx'.trans hctx, more ++ more', ?_, ?_, ?_⟩
    · rw [hmore'.entries, hmore.entries, List.append_assoc]
    · intro b hb
      rcases List.mem_append.1 hb with hb | hb
      · exact hmore.fresh b hb
      · have hnone := hmore'.fresh b hb
        rw [Env.find?_of_append hmore.entries, Option.or_eq_none_iff] at hnone
        exact hnone.1
    · simp [hmore.names, hmore'.names]

end Point

/-! ### The opening of a round -/

/-- A name that a round publishes: what the sender knows it as, and the new variable of the same
type by which everyone else receives it. -/
structure Published (view sent : Bindings) (messages : List (Arg × Var)) (start : Supply)
    (name : String) (value : Value) (v : Var) : Prop where
  known : view.find? name = some (.pub value)
  message : ∃ arg, value.typed? = some (v.type, arg) ∧ (arg, v) ∈ messages
  fresh : start.nextId ≤ v.id
  received : sent.find? name = some (.pub (.var v))

theorem Ctx.messages_published {roundLoc : Loc} {view : Bindings} {names : List String} :
    ∀ {sent sent' : Bindings} {messages : List (Arg × Var)} {s s' : Supply},
      (ctx.messages loc roundLoc view sent names).Yields s (messages, sent') s' →
      sent.entries <+: sent'.entries ∧
      sent'.entries.map (·.1) = sent.entries.map (·.1) ++ names ∧
      (∀ m ∈ messages, s.nextId ≤ m.2.id) ∧ (messages.map (·.2.id)).Nodup ∧
      ∀ name ∈ names, ∃ value v, Published view sent' messages s name value v := by
  induction names with
  | nil =>
    intro sent sent' messages s s' hrun
    simp only [Ctx.messages, yields_pure, Prod.mk.injEq] at hrun
    obtain ⟨⟨rfl, rfl⟩, rfl⟩ := hrun
    simp
  | cons name names ih =>
    intro sent sent' messages s s' hrun
    simp only [Ctx.messages, yields_bind, Bindings.lookup_yields, SecValue.requirePublic_yields,
      Value.typeOf_yields, Ctx.alloc_yields, yields_pure, Prod.mk.injEq] at hrun
    obtain ⟨sv, _, ⟨hfind, rfl⟩, value, _, ⟨rfl, rfl⟩, ⟨type, arg⟩, _, ⟨htyped, rfl⟩, _, _,
      ⟨_, rfl, rfl⟩, sent₁, _, hbind, ⟨more, last⟩, _, hmore, ⟨rfl, rfl⟩, rfl⟩ := hrun
    obtain ⟨hnew, rfl, rfl⟩ := Bindings.bind_yields.1 hbind
    obtain ⟨holder, hnames, hids, hnodup, hpublished⟩ := ih hmore
    refine ⟨List.IsPrefix.trans (List.prefix_append _ _) holder, by simp [hnames, Env.push], ?_, ?_,
      ?_⟩
    · simp only at hids
      refine List.forall_mem_cons.2 ⟨Nat.le_refl _, fun m hm => ?_⟩
      have hlater := hids m hm
      omega
    · refine List.nodup_cons.2 ⟨fun hmem => ?_, hnodup⟩
      obtain ⟨m, hm, hid⟩ := List.mem_map.1 hmem
      have hlater := hids m hm
      simp only at hid hlater
      omega
    · refine List.forall_mem_cons.2 ⟨⟨value, _, hfind, ⟨arg, htyped, List.mem_cons_self⟩,
        Nat.le_refl _, Env.find?_of_older holder (Env.find?_push_self hnew)⟩,
        fun other hother => ?_⟩
      obtain ⟨value', v, hknown, ⟨arg', htyped', hmem⟩, hfresh, hreceived⟩ :=
        hpublished other hother
      exact ⟨value', v, hknown, ⟨arg', htyped', List.mem_cons_of_mem _ hmem⟩,
        Nat.le_trans (Nat.le_succ _) hfresh, hreceived⟩

theorem Ctx.addressOf_joined {joined : NameMap Var} {who : String} {join : Bool} {whoVar : Var}
    (hrun : (ctx.addressOf loc joined who).Yields s (join, whoVar) s') :
    (joined.insertNew who whoVar).get? who = some whoVar := by
  unfold Ctx.addressOf at hrun
  split at hrun
  · rename_i known hknown
    simp only [yields_pure, Prod.mk.injEq] at hrun
    obtain ⟨⟨_, rfl⟩, _⟩ := hrun
    exact OrderedMap.get?_insertNew_of_some hknown
  · rename_i hnone
    rw [OrderedMap.insertNew, hnone]
    exact OrderedMap.get?_insert_self _ _ _

theorem Bindings.find?_withSender (env : Bindings) (name : String) (sv : SecValue) (x : String) :
    (env.withSender (some (name, sv))).find? x = if x = name then some sv else env.find? x := by
  rw [Bindings.withSender]
  split
  · rename_i heq
    rw [heq, Env.find?_set_self]
  · rename_i hne
    rw [Env.find?_set_of_ne _ _ hne]

namespace Point

variable {p q : Point}

/-- What participants know once a round is open, in which `sent` stands for the messages and `known`
for the sender. Names that are published are new to everyone but the sender, who knows them from its
`view`. Message variables are numbered from `start` on. -/
structure Opened (p q : Point) (round : Round) (display : String) (messages : List (Arg × Var))
    (known : SecValue) (sent view : Bindings) (start : Supply) (old new : Parties) : Prop where
  mode : q.ctx.mode = .consensus q.scope.env new
  keys : new.views.keys = old.views.keys
  sender : old.views.get? round.who = some view
  displayed : ∃ level tag tag' party address,
    p.scope.env.find? display = some ⟨level, .participant tag party⟩ ∧
    new.joined.get? round.who = some address ∧
    known = ⟨level, .participant tag' { party with address := some address }⟩
  shared : ∀ x, q.scope.env.find? x =
    if x = display then some known else (p.scope.env.find? x).or (sent.find? x)
  views : ∀ who before, old.views.get? who = some before →
    ∃ after, new.views.get? who = some after ∧ ∀ x, after.find? x = if x = display then some known
      else (before.find? x).or (if who = round.who then none else sent.find? x)
  names : sent.entries.map (·.1) = round.publish.getD []
  published : ∀ x ∈ round.publish.getD [], ∃ value v, Published view sent messages start x value v
  distinct : (messages.map (·.2.id)).Nodup
  new_shared : ∀ b ∈ sent.entries, p.scope.env.find? b.1 = none
  new_views : ∀ who before, old.views.get? who = some before → who ≠ round.who →
    ∀ b ∈ sent.entries, before.find? b.1 = none

theorem Opens.effect {round : Round} {display : String} {messages : List (Arg × Var)}
    {old : Parties} (h : p.Opens round messages q) (hmode : p.ctx.mode = .step old)
    (hdisplay : round.displayName = some display) :
    ∃ stmt e v start, p.stmts = stmt :: q.stmts ∧ stmt.expression? = some e ∧ p.Worth e v start ∧
      ∃ known sent view new, Opened p q round display messages known sent view start old new := by
  cases h with
  | @intro fuel ctx parties loc roundLoc scope stmt e rest code level tag round view sent shared
      messages join whoVar sender views amount check late s s₁ s₂ s₃ s₄ s₅ s₆ s₇ s₈ s₉ hexpr hstep
      hvalue hstage hview hmessages haddress hsender hshared hviews hamount hcheck hlate =>
  obtain rfl : parties = old := Mode.step.inj (hstep.symm.trans hmode)
  rw [hdisplay] at hsender
  obtain ⟨level', tag₁, tag₂, party, hfind, rfl⟩ := joinedSender_find? hsender
  obtain ⟨_, hnames, _, hnodup, hpublished⟩ := Ctx.messages_published hmessages
  obtain ⟨hkeys, hget⟩ := OrderedMap.traverse_get? (fun _ _ _ _ _ => roundView_supply) hviews
  refine ⟨stmt, e, _, s₁, rfl, hexpr, hvalue, _, sent, view,
    { joined := parties.joined.insertNew round.who whoVar, views }, rfl, hkeys, hview,
    ⟨level', tag₁, tag₂, party, whoVar, hfind, Ctx.addressOf_joined haddress, rfl⟩, fun x => ?_, ?_,
    by simpa using hnames, hpublished, hnodup, Bindings.merge_fresh hshared, ?_⟩
  · rw [Bindings.find?_withSender, Bindings.merge_find? hshared]
  · intro who before hbefore
    obtain ⟨after, hafter, hrun⟩ := hget who before hbefore
    refine ⟨after, hafter, fun x => ?_⟩
    split at hrun
    · rename_i hwho
      simp only [yields_pure] at hrun
      rw [hrun.1, Bindings.find?_withSender, if_pos hwho, Option.or_none]
    · rename_i hwho
      simp only [yields_bind, yields_pure] at hrun
      obtain ⟨received, _, hmerge, rfl, _⟩ := hrun
      rw [Bindings.find?_withSender, Bindings.merge_find? hmerge, if_neg hwho]
  · intro who before hbefore hwho
    obtain ⟨after, _, hrun⟩ := hget who before hbefore
    rw [if_neg hwho] at hrun
    simp only [yields_bind, yields_pure] at hrun
    obtain ⟨received, _, hmerge, _, _⟩ := hrun
    exact Bindings.merge_fresh hmerge

/-! ### The end of a round -/

/-- Everyone learns what the round has bound. -/
theorem Commits.effect {opened : Bindings} {old : Parties} (h : p.Commits q)
    (hmode : p.ctx.mode = .consensus opened old) :
    q.scope = p.scope ∧
      ∃ views, q.ctx.mode = .step { old with views } ∧ views.keys = old.views.keys ∧
        ∀ who before, old.views.get? who = some before →
          ∃ after : Bindings, views.get? who = some after ∧
            after.entries = before.entries ++ (p.scope.env.difference opened).entries ∧
            ∀ b ∈ (p.scope.env.difference opened).entries, before.find? b.1 = none := by
  cases h with
  | @intro fuel ctx opened' parties loc scope stmt e rest code level primLoc views s s₁ s₂ hexpr
      hconsensus hvalue hviews =>
  obtain ⟨rfl, rfl⟩ := Mode.consensus.inj (hconsensus.symm.trans hmode)
  obtain ⟨hkeys, hget⟩ := OrderedMap.traverse_get?
    (fun _ _ _ _ _ hrun => (Bindings.merge_yields hrun).2) hviews
  refine ⟨rfl, views, rfl, hkeys, fun who before hbefore => ?_⟩
  obtain ⟨after, hafter, hmerge⟩ := hget who before hbefore
  exact ⟨after, hafter, (Bindings.merge_yields hmerge).1, Bindings.merge_fresh hmerge⟩

end Point

/-! ### A whole round -/

theorem publishedNames_yields {idents : List (Loc × String)} :
    ∀ {names : List String} {s s' : Supply},
      (publishedNames (idents.map fun i => .ident i.1 i.2)).Yields s names s' →
      names = idents.map (·.2) ∧ s' = s := by
  induction idents with
  | nil =>
    intro names s s' hrun
    simpa [publishedNames] using hrun
  | cons first idents ih =>
    intro names s s' hrun
    simp only [List.map_cons, publishedNames, yields_bind, yields_pure] at hrun
    obtain ⟨rest, _, hrest, rfl, rfl⟩ := hrun
    obtain ⟨rfl, rfl⟩ := ih hrest
    exact ⟨rfl, rfl⟩

/-- The round of a participant that is referred to by `name`, in which it publishes `names`. -/
def Participant.publishing (party : Participant) (name : String) (names : List String) : Round :=
  { who := party.who, displayName := some (party.displayName.getD name), stage := none,
    publish := some names }

namespace Point

variable {p : Point} {v : Lifted SecValue} {s₁ : Supply}

theorem Worth.publish {callLoc dotLoc nameLoc : Loc} {name : String} {idents : List (Loc × String)}
    {level : Level} {tag : Tag} {party : Participant}
    (hfind : p.scope.env.find? name = some ⟨level, .participant tag party⟩)
    (hworth : p.Worth (.call callLoc (.dot dotLoc (.ident nameLoc name) "publish")
      (idents.map fun i => .ident i.1 i.2)) v s₁) :
    (∃ roundLoc tag, v.value.value =
      .form roundLoc tag (.round (party.publishing name (idents.map (·.2))))) ∧
      s₁.nextId = p.supply.nextId := by
  obtain ⟨depth, construct, result, s₂, s₃, _, hsupply, hconstruct, happly, _, hvalue⟩ :=
    participant_call_yields hfind hworth
  have honly : ¬ "publish" = "only" := by decide
  have hstage : Stage.ofField? [.publish, .pay] "publish" = some .publish := by decide
  simp only [Participant.field, if_neg honly, hstage, yields_bind, yields_freshTag,
    yields_pure] at hconstruct
  obtain ⟨_, _, ⟨rfl, rfl⟩, rfl, rfl⟩ := hconstruct
  simp only [Evaluator.apply, Evaluator.applyForm, yields_bind, Ctx.expectMode_yields,
    yields_orFail, Option.some.injEq, yields_freshTag, yields_pure] at happly
  obtain ⟨_, _, ⟨_, rfl⟩, _, _, ⟨rfl, rfl⟩, round, _, hfill, tag', _, ⟨rfl, rfl⟩, rfl, rfl⟩ :=
    happly
  simp only [Round.fill, yields_bind, yields_ensure, yields_pure] at hfill
  obtain ⟨_, _, ⟨_, rfl⟩, names, _, hnames, rfl, rfl⟩ := hfill
  obtain ⟨rfl, rfl⟩ := publishedNames_yields hnames
  exact ⟨⟨_, _, hvalue⟩, hsupply⟩

theorem Worth.commit {callLoc nameLoc primLoc : Loc}
    (hfind : p.scope.env.find? "commit" = some (.pub (.prim primLoc .commit)))
    (hworth : p.Worth (.call callLoc (.ident nameLoc "commit") []) v s₁) :
    v.value.value = .prim callLoc .committed := by
  obtain ⟨depth, values, result, s₂, _, hvalues, happly, _, hvalue⟩ :=
    prim_call_yields hfind hworth
  simp only [Ctx.applyPrim, Ctx.commit, yields_bind, yields_pure] at happly
  obtain ⟨_, _, _, _, _, _, rfl, _⟩ := happly
  exact hvalue

/-- Each statement binds names, defines a function, or is an expression that is worth null when its
turn comes. -/
def Plain : Point → List Surface.Stmt → Prop
  | _, [] => True
  | p, stmt :: stmts =>
    ((∃ loc decls, stmt = .constDecl loc decls) ∨
      (∃ loc name formals body, stmt = .function loc name formals body) ∨
      ∃ e, stmt.expression? = some e ∧ ∀ v s₁, p.Worth e v s₁ →
        ∃ a, v.value.value.typed? = some (.null, a)) ∧
    ∀ q, p.Passes stmt q → Plain q stmts

/-- In a run, plain statements pass one after the other. -/
theorem Yields.passes {stmts rest : List Surface.Stmt} :
    ∀ {p : Point} {r : Lifted Outcome} {s' : Supply}, p.Yields r s' → p.stmts = stmts ++ rest →
      p.Plain stmts → ∃ q, p.PassesAll stmts q := by
  induction stmts with
  | nil => exact fun {p} _ _ _ _ _ => ⟨p, .nil⟩
  | cons stmt stmts ih =>
    rintro p r s' hrun hstmts ⟨hkind, hplain⟩
    have hfirst : ∃ q, p.Passes stmt q ∧ q.stmts = stmts ++ rest := by
      rcases hkind with ⟨loc, decls, rfl⟩ | ⟨loc, name, formals, body, rfl⟩ | ⟨e, hexpr, hnull⟩
      · exact hrun.declares hstmts
      · exact hrun.defines hstmts
      · obtain ⟨v, s₁, hworth⟩ := hrun.worth hstmts hexpr
        obtain ⟨a, ha⟩ := hnull v s₁ hworth
        exact hrun.computes hstmts hexpr hworth ha
    obtain ⟨q, hpass, hrest⟩ := hfirst
    obtain ⟨next, _, hnext, _⟩ := hpass.follow hrun
    obtain ⟨q', hpasses⟩ := ih hnext hrest (hplain q hpass)
    exact ⟨q', .cons hpass hpasses⟩

end Point

/-- What participants know after a round of the sender `who`, which programs call `display`. Each
published name stands for one new message variable, and each name that was bound in the round for
one value, which everyone shares; the sender keeps what it knows of the names that it published. -/
structure CommonKnowledge (p q : Point) (who display : String) (published bound : List String)
    (messages : List (Arg × Var)) (old new : Parties) : Prop where
  participants : new.views.keys = old.views.keys
  /-- Nobody forgets, and everyone agrees with the shared environment on what the round was
  about. -/
  view : ∀ party before, old.views.get? party = some before →
    ∃ after, new.views.get? party = some after ∧
      (∀ x sv, x ≠ display → before.find? x = some sv → after.find? x = some sv) ∧
      ∀ x, x = display ∨ x ∈ bound ∨ (x ∈ published ∧ party ≠ who) →
        after.find? x = q.scope.env.find? x
  address : ∃ level tag tag' sender address,
    p.scope.env.find? display = some ⟨level, .participant tag sender⟩ ∧
    new.joined.get? who = some address ∧
    q.scope.env.find? display =
      some ⟨level, .participant tag' { sender with address := some address }⟩
  message : ∀ x ∈ published, x ≠ display ∧ ∃ view value arg v, old.views.get? who = some view ∧
    view.find? x = some (.pub value) ∧ value.typed? = some (v.type, arg) ∧ (arg, v) ∈ messages ∧
    p.supply.nextId ≤ v.id ∧ q.scope.env.find? x = some (.pub (.var v))
  distinct : (messages.map (·.2.id)).Nodup
  learned : ∀ x ∈ bound, (q.scope.env.find? x).isSome = true

namespace Point.Opened

variable {p q₁ q₂ q₃ : Point} {round : Round} {display : String} {messages : List (Arg × Var)}
  {known : SecValue} {sent view : Bindings} {start : Supply} {old opened : Parties}
  {bound : List String} {more : List (String × SecValue)} {party x : String}

variable (h : p.Opened q₁ round display messages known sent view start old opened)
include h

theorem ne_display (hx : x ∈ round.publish.getD []) : x ≠ display := by
  rintro rfl
  obtain ⟨_, _, _, _, _, hdisplay, _, _⟩ := h.displayed
  rw [← h.names] at hx
  obtain ⟨b, hb, rfl⟩ := List.mem_map.1 hx
  simp [h.new_shared b hb] at hdisplay

/-- In the shared environment of an open round, a published name stands for its message. -/
theorem find?_sent (hx : x ∈ round.publish.getD []) : q₁.scope.env.find? x = sent.find? x := by
  rw [h.shared, if_neg (h.ne_display hx)]
  rw [← h.names] at hx
  obtain ⟨b, hb, rfl⟩ := List.mem_map.1 hx
  rw [h.new_shared b hb, Option.none_or]

/-- Everyone agrees with the shared environment on the sender, on the names that were bound in the
round and, the sender apart, on the messages. -/
theorem agrees (hextends : Extends q₁.scope.env q₂.scope.env bound more)
    {before mid after : Bindings} (hbefore : old.views.get? party = some before)
    (hmid : ∀ x, mid.find? x = if x = display then some known
      else (before.find? x).or (if party = round.who then none else sent.find? x))
    (hafter : after.entries = mid.entries ++ more) (hnew : ∀ b ∈ more, mid.find? b.1 = none)
    (hx : x = display ∨ x ∈ bound ∨ (x ∈ round.publish.getD [] ∧ party ≠ round.who)) :
    after.find? x = q₂.scope.env.find? x := by
  rw [Env.find?_of_append hafter, hextends.find?]
  rcases hx with rfl | hbound | ⟨hsent, hparty⟩
  · rw [hmid, h.shared, if_pos rfl, if_pos rfl]
  · rw [← hextends.names] at hbound
    obtain ⟨b, hb, rfl⟩ := List.mem_map.1 hbound
    rw [hnew b hb, hextends.fresh b hb]
  · rw [hmid, if_neg (h.ne_display hsent), h.find?_sent hsent]
    rw [← h.names] at hsent
    obtain ⟨b, hb, rfl⟩ := List.mem_map.1 hsent
    rw [h.new_views party before hbefore hparty b hb, if_neg hparty, Option.none_or]

/-- What participants know after a round, from what they know at its beginning and its end. -/
theorem commonKnowledge (hstart : start.nextId = p.supply.nextId)
    (hextends : Extends q₁.scope.env q₂.scope.env bound more) (hctx : q₂.ctx = q₁.ctx)
    (hcommits : q₂.Commits q₃) :
    ∃ new, q₃.ctx.mode = .step new ∧
      CommonKnowledge p q₃ round.who display (round.publish.getD []) bound messages old new := by
  obtain ⟨hscope, views, hmode, hkeys, hviews⟩ :=
    hcommits.effect (show q₂.ctx.mode = .consensus q₁.scope.env opened by rw [hctx, h.mode])
  rw [Env.difference_entries hextends.entries hextends.fresh] at hviews
  refine ⟨_, hmode, hkeys.trans h.keys, ?_, ?_, ?_, h.distinct, ?_⟩
  · intro party before hbefore
    obtain ⟨m, hm, hmid⟩ := h.views party before hbefore
    obtain ⟨after, hafter, hentries, hnew⟩ := hviews party m hm
    refine ⟨after, hafter, fun x sv hne hfind => ?_, fun x hx => ?_⟩
    · rw [Env.find?_of_append hentries, hmid, if_neg hne, hfind, Option.some_or, Option.some_or]
    · rw [hscope]
      exact h.agrees hextends hbefore hmid hentries hnew hx
  · obtain ⟨level, tag, tag', sender, address, hdisplay, hjoined, rfl⟩ := h.displayed
    refine ⟨level, tag, tag', sender, address, hdisplay, hjoined, ?_⟩
    rw [hscope, hextends.find?, h.shared, if_pos rfl, Option.some_or]
  · intro x hx
    obtain ⟨value, v, hpublished⟩ := h.published x hx
    obtain ⟨arg, htyped, hmem⟩ := hpublished.message
    refine ⟨h.ne_display hx, view, value, arg, v, h.sender, hpublished.known, htyped, hmem,
      hstart ▸ hpublished.fresh, ?_⟩
    rw [hscope, hextends.find?, h.find?_sent hx, hpublished.received, Option.some_or]
  · intro x hx
    rw [← hextends.names] at hx
    obtain ⟨b, hb, rfl⟩ := List.mem_map.1 hx
    rw [hscope, hextends.find?, hextends.fresh b hb, Option.none_or, List.lookup_isSome_iff]
    exact ⟨b, hb, by simp⟩

end Point.Opened

/-- A committed round is common knowledge. When `W.publish(..)`, plain statements and `commit()`
stand in front of others, those are evaluated between rounds, inside the code of the round, with
views that have learned all that the round was about and forgotten nothing. -/
theorem committed_round_is_common_knowledge {p : Point} {old : Parties}
    {publish commit : Surface.Stmt} {stmts rest : List Surface.Stmt} {w : String}
    {idents : List (Loc × String)} {level : Level} {tag : Tag} {sender : Participant}
    {callLoc dotLoc nameLoc commitLoc commitNameLoc primLoc : Loc} {r : Lifted Outcome}
    {s' : Supply} (hrun : p.Yields r s') (hmode : p.ctx.mode = .step old)
    (hstmts : p.stmts = publish :: (stmts ++ commit :: rest))
    (hpublish : publish.expression? = some (.call callLoc (.dot dotLoc (.ident nameLoc w) "publish")
      (idents.map fun i => .ident i.1 i.2)))
    (hsender : p.scope.env.find? w = some ⟨level, .participant tag sender⟩)
    (hplain : ∀ messages q, p.Opens (sender.publishing w (idents.map (·.2))) messages q →
      q.Plain stmts)
    (hcommit : commit.expression? = some (.call commitLoc (.ident commitNameLoc "commit") []))
    (hprim : p.scope.env.find? "commit" = some (.pub (.prim primLoc .commit))) :
    ∃ (q : Point) (next : Lifted Outcome) (new : Parties) (t : Transition)
      (before inside : Code) (roundLoc endLoc : Loc),
      q.Yields next s' ∧ q.stmts = rest ∧ q.ctx.mode = .step new ∧
      r.code = before ++ [.toConsensus roundLoc t] ∧
      t.body = inside ++ [.fromConsensus endLoc next.code] ∧
      CommonKnowledge p q sender.who (sender.displayName.getD w) (idents.map (·.2))
        (stmts.flatMap (·.binds)) t.messages old new := by
  -- the round opens
  obtain ⟨v, s₁, hworth⟩ := hrun.worth hstmts hpublish
  obtain ⟨⟨roundLoc, tag', hround⟩, _⟩ := Point.Worth.publish hsender hworth
  obtain ⟨messages, q₁, hopens, hstmts₁⟩ := hrun.opens hstmts hpublish hmode hworth hround
  obtain ⟨next₁, before, loc₁, t, check, hnext₁, _, hcode, _, rfl, hbody⟩ := hopens.follow hrun
  obtain ⟨stmt, e, v', start, hstmts', hexpr, hworth', known, sent, view, mid, hopened⟩ :=
    hopens.effect hmode rfl
  obtain ⟨rfl, _⟩ := List.cons.inj (hstmts.symm.trans hstmts')
  obtain rfl := Option.some.inj (hpublish.symm.trans hexpr)
  obtain ⟨_, hstart⟩ := Point.Worth.publish hsender hworth'
  -- its statements pass
  obtain ⟨q₂, hpasses⟩ := hnext₁.passes hstmts₁ (hplain _ _ hopens)
  obtain ⟨next₂, code, hnext₂, rfl⟩ := hpasses.follow hnext₁
  obtain ⟨hstmts₂, hctx, more, hextends⟩ := hpasses.effect
  have hend : q₂.stmts = commit :: rest := List.append_cancel_left (hstmts₂.symm.trans hstmts₁)
  -- and it is committed
  have hmode₂ : q₂.ctx.mode = .consensus q₁.scope.env mid := by rw [hctx, hopened.mode]
  have hprim₂ : q₂.scope.env.find? "commit" = some (.pub (.prim primLoc .commit)) := by
    have hne : "commit" ≠ sender.displayName.getD w := by
      intro heq
      obtain ⟨_, _, _, _, _, hdisplay, _, _⟩ := hopened.displayed
      rw [← heq, hprim] at hdisplay
      cases hdisplay
    rw [hextends.find?, hopened.shared, if_neg hne, hprim, Option.some_or, Option.some_or]
  obtain ⟨v₂, s₃, hworth₂⟩ := hnext₂.worth hend hcommit
  obtain ⟨q₃, hcommits, hrest⟩ :=
    hnext₂.commits hend hcommit hmode₂ hworth₂ (Point.Worth.commit hprim₂ hworth₂)
  obtain ⟨next, last, endLoc, hnext, rfl⟩ := hcommits.follow hnext₂
  obtain ⟨new, hnew, hknowledge⟩ := hopened.commonKnowledge hstart hextends hctx hcommits
  exact ⟨q₃, next, new, t, before, check ++ code ++ last, loc₁, endLoc, hnext, hrest, hnew, hcode,
    by simp [hbody, Lifted.after], hknowledge⟩

/-! ### A round that is shared -/

namespace Surface

/-- What everyone knows of two participants. -/
def twoParties : Bindings :=
  ⟨baseEnv.entries ++ [("A", .secret (.participant 1 (newcomer "A"))),
    ("B", .secret (.participant 2 (newcomer "B")))]⟩

/-- The statements of a round that binds a name, defines a function and makes a claim. -/
def sharedStmts : List Stmt :=
  [define "y" (.binary here .plus (name "x") (number "1")),
    .function here (some "g") [] ⟨here, []⟩,
    .expr here (apply "require" [.binary here .lt (name "x") (name "y")])]

/-- The first participant publishes a number that it knows, and after the round the second uses what
the round has bound. -/
def sharing : Point :=
  { fuel := 14
    ctx := { mode := .step { views := ⟨[("A", twoParties.push "x" (.pub (.int here 5))),
      ("B", twoParties)]⟩ }, canLift := true }
    loc := here
    scope := { env := twoParties }
    stmts := .expr here (method (name "A") "publish" [name "x"]) :: (sharedStmts ++
      [.expr here (apply "commit" []),
        .expr here (method (name "B") "only" [thunk [define "z" (name "y")]])])
    supply := {} }

end Surface

/-- A claim is worth null. -/
theorem Point.Worth.claim {p : Point} {c : Claim} {callLoc nameLoc primLoc : Loc} {name : String}
    {args : List Surface.Expr} {v : Lifted SecValue} {s₁ : Supply}
    (hfind : p.scope.env.find? name = some (.pub (.prim primLoc (.claim c))))
    (hworth : p.Worth (.call callLoc (.ident nameLoc name) args) v s₁) :
    ∃ a, v.value.value.typed? = some (.null, a) := by
  obtain ⟨_, _, _, _, _, _, happly, _, hvalue⟩ := prim_call_yields hfind hworth
  simp only [Ctx.applyPrim, Ctx.claim, yields_bind, yields_pure] at happly
  obtain ⟨_, _, _, rfl, _⟩ := happly
  exact ⟨_, by rw [hvalue]; rfl⟩

theorem sharing_is_common_knowledge :
    ∃ (r : Lifted Outcome) (s' : Supply) (q : Point) (next : Lifted Outcome) (old new : Parties)
      (messages : List (Arg × Var)), Surface.sharing.Yields r s' ∧ q.Yields next s' ∧
      Surface.sharing.ctx.mode = .step old ∧ old.views.keys = ["A", "B"] ∧
      CommonKnowledge Surface.sharing q "A" "A" ["x"] ["y", "g"] messages old new := by
  let p : Point := Surface.sharing
  obtain ⟨r, s', hrun, _⟩ := exists_yields_of_any (s := p.supply) (f := fun _ => true)
    (x := Elaboration.evalStmts p.fuel p.ctx p.loc p.scope p.stmts) (by decide +kernel)
  have hpublish : (Surface.Stmt.expr Surface.here
      (Surface.method (Surface.name "A") "publish" [Surface.name "x"])).expression? = some
        (.call Surface.here (.dot Surface.here (.ident Surface.here "A") "publish")
          ([(Surface.here, "x")].map fun i => .ident i.1 i.2)) := rfl
  have hsender : p.scope.env.find? "A" =
      some ⟨.secret, .participant 1 (Surface.newcomer "A")⟩ := by rfl
  have hplain : ∀ messages q, p.Opens ((Surface.newcomer "A").publishing "A" ["x"]) messages q →
      q.Plain Surface.sharedStmts := by
    intro messages q hopens
    obtain ⟨_, _, _, _, _, _, _, _, _, _, _, hopened⟩ := hopens.effect rfl rfl
    refine ⟨.inl ⟨_, _, rfl⟩, fun q₁ h₁ => ⟨.inr (.inl ⟨_, _, _, _, rfl⟩), fun q₂ h₂ =>
      ⟨.inr (.inr ⟨_, rfl, fun v s₁ hworth => ?_⟩), fun _ _ => trivial⟩⟩⟩
    obtain ⟨_, _, _, hextends₁⟩ := h₁.effect
    obtain ⟨_, _, _, hextends₂⟩ := h₂.effect
    have hrequire : q₂.scope.env.find? "require" =
        some (.pub (.prim .synthetic (.claim .require))) := by
      rw [hextends₂.find?, hextends₁.find?, hopened.shared]
      rfl
    exact Point.Worth.claim hrequire hworth
  obtain ⟨q, next, new, t, _, _, _, _, hnext, _, _, _, _, hknowledge⟩ :=
    committed_round_is_common_knowledge (p := p) hrun rfl rfl hpublish hsender hplain rfl (by rfl)
  exact ⟨r, s', q, next, _, new, t.messages, hrun, hnext, rfl, rfl, hknowledge⟩

end Choreography
