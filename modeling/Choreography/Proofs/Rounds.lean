import Choreography.Elaborate.Round
import Choreography.Proofs.Containers
import Choreography.Proofs.Sequences

/-!
Rounds are sound. What a round publishes is public in the sender's view; everyone learns the
messages under new variables, and the address of a sender that joins. The payment is computed in the
sender's view just before the round.
-/

namespace Choreography

open Eval Ir

variable {R : Regime} {J : List (String × Var)} {X Y : List Known} {s s₁ s₂ s' : Supply} {loc : Loc}
  {ctx : Ctx} {env : Bindings} {ev : Evaluator} {scope : Scope} {who : String} {parties : Parties}
  {sender : Option (String × SecValue)}

/-! ### The sender -/

theorem Ctx.messages_formed {roundLoc : Loc} {view sent : Bindings} (hview : view.Formed R X)
    {names : List String} (hnames : R.Admits names) :
    From s (fun r s' => (∀ m ∈ r.1, m.1.Formed R X .pub ∧ m.1.type = m.2.type) ∧
      (∀ b ∈ r.2.entries, b ∈ sent.entries ∨ ∃ m ∈ r.1, b.2 = .pub (.var m.2)) ∧
      s.nextId ≤ s'.nextId ∧ ∀ i, (r.1.map (·.2.id)).count i ≤ drawn s s' i)
      (ctx.messages loc roundLoc view sent names) := by
  induction names generalizing sent s with
  | nil => exact .pure (by simp)
  | cons name names ih =>
    obtain ⟨hname, hothers⟩ := Regime.admits_cons.1 hnames
    refine .keep Bindings.lookup_yields.1 fun sv hfind => .bind ⟨SecValue.requirePublic_yields.1⟩ ?_
    rintro value _ ⟨rfl, rfl⟩
    refine .keep Value.typeOf_yields.1 fun typed ht => Ctx.alloc_from fun _ =>
      .bind ⟨Bindings.bind_yields.1⟩ ?_
    rintro _ _ ⟨_, rfl, rfl⟩
    refine (ih hothers).bind ?_
    rintro ⟨more, last⟩ _ ⟨hmessages, hsent, hle, honce⟩
    obtain ⟨hformed, htype⟩ := Value.Formed.typed? (hview.find? hname hfind) ht
    simp only at hle
    refine .pure ⟨List.forall_mem_cons.2 ⟨⟨hformed, htype⟩, hmessages⟩, ?_, by omega, ?_⟩
    · intro b hb
      rcases hsent b hb with hpushed | ⟨m, hm, hvalue⟩
      · rcases List.mem_append.1 hpushed with hold | hnew
        · exact .inl hold
        · obtain rfl := List.mem_singleton.1 hnew
          exact .inr ⟨_, List.mem_cons_self, rfl⟩
      · exact .inr ⟨m, List.mem_cons_of_mem _ hm, hvalue⟩
    · intro i
      have hcount := honce i
      simp only [List.map_cons, List.count_cons, beq_iff_eq]
      grind [drawn]

/-- The address that a sender joins with, when it does. -/
def joinedAddress (join : Bool) (whoVar : Var) : List Known := if join then [.pub whoVar] else []

theorem mem_joinedAddress {join : Bool} {whoVar : Var} {k : Known}
    (h : k ∈ joinedAddress join whoVar) : join = true ∧ k = .pub whoVar := by
  unfold joinedAddress at h
  split at h
  · exact ⟨‹_›, List.mem_singleton.1 h⟩
  · simp at h

/-- The address of a sender is known before the round, or it is new. -/
theorem Ctx.addressOf_formed (hparties : parties.Formed R J X) :
    From s (fun r s' => r.2.type = .address ∧ (r.1 = false → (who, r.2) ∈ J ∧ R.Sees X .pub r.2) ∧
      R.Sees (X ++ joinedAddress r.1 r.2) .pub r.2 ∧ s.nextId ≤ s'.nextId ∧
      ∀ i, (if r.1 then [r.2.id] else []).count i ≤ drawn s s' i)
      (ctx.addressOf loc parties.joined who) := by
  unfold Ctx.addressOf
  split
  · rename_i known hget
    obtain ⟨hmem, hsees, htype⟩ := hparties.joined _ (OrderedMap.mem_of_get? hget)
    exact .pure ⟨htype, fun _ => ⟨hmem, hsees⟩, hsees.mono (List.subset_append_left _ _) .refl,
      Nat.le_refl _, by simp⟩
  · refine Ctx.alloc_from fun _ => .pure
      ⟨rfl, by simp, ⟨.pub, ?_, .refl⟩, Nat.le_succ _, fun i => ?_⟩
    · simp [joinedAddress, Labelled.pub]
    · simp only [if_true, List.count_singleton, beq_iff_eq]
      grind [drawn]

theorem joinedSender_formed {displayName : Option String} {address : Var}
    (htype : address.type = .address) :
    From s (fun sender s' => (∀ (Y : List Known) b, sender = some b → R.Sees Y .pub address →
      SecValue.Formed R Y b.2) ∧ s'.nextId = s.nextId)
      (joinedSender loc env displayName address) := by
  unfold joinedSender
  split
  · exact .pure (by simp)
  · refine .keep Bindings.lookup_yields.1 fun sv _ => ?_
    split
    · refine .freshTag (.pure ⟨?_, rfl⟩)
      rintro Y b ⟨⟩ hsees
      refine .participant ?_
      rintro v ⟨⟩
      exact ⟨hsees, htype⟩
    · exact .fail

/-- What stands for the sender in a round: the participant that is bound to the name, with the
address that the sender has on the ledger. -/
theorem joinedSender_find? {name : String} {address : Var}
    (hrun : (joinedSender loc env (some name) address).Yields s sender s') :
    ∃ level tag tag' party, env.find? name = some ⟨level, .participant tag party⟩ ∧
      sender = some (name, ⟨level, .participant tag' { party with address := some address }⟩) := by
  simp only [joinedSender, yields_bind, Bindings.lookup_yields] at hrun
  obtain ⟨⟨level, value⟩, _, ⟨hfind, rfl⟩, hrun⟩ := hrun
  split at hrun
  · rename_i tag party hparty
    obtain rfl : value = .participant tag party := hparty
    simp only [yields_bind, yields_freshTag, yields_pure] at hrun
    obtain ⟨tag', _, _, rfl, _⟩ := hrun
    exact ⟨level, tag, tag', party, hfind, rfl⟩
  · simp at hrun

theorem Bindings.Formed.withSender (h : env.Formed R X)
    (hsender : ∀ b, sender = some b → SecValue.Formed R X b.2) :
    Bindings.Formed R X (env.withSender sender) := by
  cases sender with
  | none => exact h
  | some b => exact h.set (hsender b rfl)

theorem roundView_supply {who name : String} {old sent view : Bindings}
    (hrun : (do
      if name = who then return old.withSender sender
      else
        let received ← old.merge loc sent
        return received.withSender sender : Eval Bindings).Yields s view s') : s' = s := by
  split at hrun
  · simp only [yields_pure] at hrun
    exact hrun.2
  · simp only [yields_bind, yields_pure] at hrun
    obtain ⟨_, _, hmerge, _, rfl⟩ := hrun
    exact (Bindings.merge_yields hmerge).2

/-- What each participant knows once the messages are out. The sender learns no more than its own
address. -/
theorem roundViews_formed {Z : List Known} {views out : NameMap Bindings} {sent : Bindings}
    (hviews : ∀ e ∈ views.entries, Bindings.Formed R X e.2) (hX : X ⊆ Z) (hZ : Z ⊆ Y)
    (hsent : sent.Formed R Y) (hsender : ∀ b, sender = some b → SecValue.Formed R Z b.2)
    (hrun : (views.traverse fun name old => do
      if name = who then return old.withSender sender
      else
        let received ← old.merge loc sent
        return received.withSender sender : Eval (NameMap Bindings)).Yields s out s') :
    ((∀ e ∈ out.entries, Bindings.Formed R Y e.2) ∧
      Bindings.Formed R Z ((out.get? who).getD {})) ∧ s' = s := by
  obtain ⟨hout, rfl⟩ := OrderedMap.traverse_yields (fun _ _ _ _ _ => roundView_supply) hrun
  have hview : ∀ e ∈ out.entries, Bindings.Formed R Y e.2 ∧
      (e.1 = who → Bindings.Formed R Z e.2) := by
    intro e he
    obtain ⟨old, hold, hview⟩ := hout e he
    have holdFormed : old.Formed R Z := (hviews _ hold).mono hX
    split at hview
    · rw [(yields_pure.1 hview).1]
      exact ⟨(holdFormed.withSender hsender).mono hZ, fun _ => holdFormed.withSender hsender⟩
    · rename_i hother
      simp only [yields_bind, yields_pure] at hview
      obtain ⟨received, _, hmerge, hvalue, _⟩ := hview
      rw [hvalue]
      exact ⟨((holdFormed.mono hZ).of_append hsent (Bindings.merge_yields hmerge).1).withSender
        fun b hb => (hsender b hb).mono hZ, fun h => absurd h hother⟩
  refine ⟨⟨fun e he => (hview e he).1, ?_⟩, rfl⟩
  cases hget : out.get? who with
  | none => exact Bindings.formed_empty
  | some view => exact (hview _ (OrderedMap.mem_of_get? hget)).2 rfl

/-- Whoever knows the variables by which messages are received knows what is sent. -/
theorem sent_formed {messages : List (Arg × Var)} {sent : Bindings}
    (hsent : ∀ b ∈ sent.entries, ∃ m ∈ messages, b.2 = .pub (.var m.2))
    (hY : messages.map (fun m => .pub m.2) ⊆ Y) : sent.Formed R Y := by
  intro b hb _
  obtain ⟨m, hm, hvalue⟩ := hsent b hb
  rw [hvalue]
  exact .var (.of_mem (hY (List.mem_map_of_mem hm)))

/-- In a round the sender is on the ledger. -/
theorem Parties.Formed.join {whoVar : Var} {views : NameMap Bindings} (h : parties.Formed R J X)
    (hX : X ⊆ Y) (hwho : R.Sees Y .pub whoVar) (htype : whoVar.type = .address)
    (hviews : ∀ e ∈ views.entries, Bindings.Formed R Y e.2) :
    Parties.Formed R ((who, whoVar) :: J) Y
      { joined := parties.joined.insertNew who whoVar, views } := by
  refine ⟨fun e he => ?_, hviews⟩
  rcases OrderedMap.mem_insertNew he with rfl | hold
  · exact ⟨List.mem_cons_self, hwho, htype⟩
  · obtain ⟨hmem, hsees, htype⟩ := h.joined e hold
    exact ⟨List.mem_cons_of_mem _ hmem, hsees.mono hX .refl, htype⟩

/-! ### Payment and deadline -/

/-- An amount mentions no address. -/
theorem Ir.Arg.Formed.amount {a : Arg} {level : Level} (h : a.Formed R Y level)
    (htype : a.type = .uint256) (hY : ∀ k ∈ Y, k.value.type = .address ∨ k ∈ X) :
    a.Formed R X level := by
  cases h with
  | var hsees =>
    obtain ⟨k, hmem, hallows⟩ := hsees
    rcases hY _ hmem with haddress | hX
    · simp only [Arg.type] at htype
      rw [htype] at haddress
      cases haddress
    · exact .var ⟨k, hX, hallows⟩
  | const => exact .const
  | tuple => simp [Arg.type] at htype
  | object => simp [Arg.type] at htype
  | interact hallows hoffers hdata => exact .interact hallows hoffers hdata

theorem Evaluator.Sound.payment (hev : ev.Sound R) {view : Bindings} {pay : Option Surface.Expr}
    (hmode : ctx.mode.Formed R J X) (hview : view.Formed R X)
    (hnames : R.Admits ((pay.map (·.idents)).getD [])) :
    Computes R J X s (fun Y a => a.Formed R Y .pub ∧ a.type = .uint256)
      (ev.payment ctx view pay) := by
  cases pay with
  | none => exact .plain ⟨.const, rfl⟩
  | some e =>
    refine (hev.computes hmode hview hnames).bind fun _ _ hamount =>
      .keep SecValue.requirePublic_yields.1 fun _ hpublic => .keep Value.checkType_yields.1
        fun _ ha => .pure (hamount.imp fun Y _ hvalue => ?_)
    rw [SecValue.Formed, hpublic] at hvalue
    exact hvalue.typed? ha

/-- The handler of a deadline is a part of the round, its delay stands before it. -/
theorem Evaluator.Sound.deadline (hev : ev.Sound R) {timeout : Option Timeout}
    (hmode : ctx.mode.Formed R J X) (hscope : scope.Formed R X)
    (hnames : R.Admits ((timeout.map fun t => t.delay.idents ++ t.handler.idents).getD [])) :
    From s (fun r s' => ∃ (O B : List Known) (late : Option (Arg × Part)) (s₁ : Supply),
      Emits R J X s s₁ r.code [] O B ∧ s₁.nextId ≤ s'.nextId ∧
      r.value.1 = late.map (fun l => { delay := l.1, body := l.2.code }) ∧
      (∀ l, late = some l → l.1.Formed R (X ++ O) .pub ∧ l.1.type = .uint256 ∧
        l.2.Fits J (X ++ O) ∧
        Code.Formed R l.2.joined l.2.known l.2.code l.2.returns l.2.exports l.2.binders) ∧
      (∀ i, ((late.toList.map (·.2)).flatMap fun p => definitions p.code).count i
        ≤ drawn s₁ s' i) ∧
      Returned R scope.slot ((late.toList.map (·.2)).flatMap Part.returns) r.value.2)
      (ev.deadline ctx scope timeout) := by
  cases timeout with
  | none =>
    exact .pure ⟨[], [], none, _, .nil (Nat.le_refl _), Nat.le_refl _, rfl, by simp, by simp, .nil⟩
  | some t =>
    simp only [Option.map_some, Option.getD_some, Regime.admits_append] at hnames
    refine (hev.computes hmode hscope.env hnames.1).andThen fun _ _ O B hcode hvalue =>
      .keep SecValue.requirePublic_yields.1 fun _ hpublic => .keep Value.checkType_yields.1
        fun a ha => ?_
    have hsub : X ⊆ X ++ O := List.subset_append_left X O
    rw [SecValue.Formed, hpublic] at hvalue
    obtain ⟨hformed, htype⟩ := hvalue.typed? ha
    refine (hev.concludes (hmode.mono hsub) (hscope.mono hsub)
      (by rw [← Surface.Block.idents_eq]; exact hnames.2)).bind fun handler _ hhandler => .pure ?_
    obtain ⟨E, Oh, Bh, hhCode, hreturned, _⟩ := hhandler
    refine ⟨O, B, some (a, ⟨J, X ++ O, handler.code, E, Oh, Bh⟩), _, hcode, hhCode.le, rfl, ?_, ?_,
      by simpa using hreturned⟩
    · rintro l ⟨⟩
      exact ⟨hformed, htype, ⟨List.Subset.refl _, List.Subset.refl _⟩, hhCode.formed⟩
    · simpa using hhCode.once

/-! ### Rounds -/

/-- The check that consensus makes mentions only what the payment mentions. -/
theorem amountCheck_admits {pay : Option Surface.Expr}
    (h : R.Admits ((pay.map (·.idents)).getD [])) :
    R.Admits (amountCheck loc (pay.getD (.int loc "0" 10))).idents := by
  have hpay : R.Admits (pay.getD (.int loc "0" 10)).idents := by
    cases pay with
    | none => simp [Surface.Expr.idents]
    | some e => exact h
  simp only [amountCheck, Surface.Expr.idents, Surface.exprsIdents, Regime.admits_append,
    Regime.admits_nil, and_true]
  exact ⟨Regime.admits_of_ne (by decide), hpay, Regime.admits_of_ne (by decide)⟩

/-- The payment in front of a round. Without code for it there is nothing in front. -/
theorem payment_formed {pay : Code} {roundLoc : Loc} {t : Transition} {parts : List Part}
    {ahead Z Op Bp B : List Known} {E : List Return}
    (hpay : Code.Formed R J (Z ++ ahead) pay [] Op Bp) (hwho : t.who = who)
    (hahead : ∀ k ∈ ahead, t.join = true ∧ k = .pub t.whoVar)
    (hround : Stmt.Formed R J (Z ++ Op) none (.toConsensus roundLoc t) parts E [] B)
    (hparts : ∀ p ∈ parts, Code.Formed R p.joined p.known p.code p.returns p.exports p.binders) :
    Code.Formed R J Z ((if pay.isEmpty then [] else [.only loc who pay]) ++ [.toConsensus roundLoc t])
      E Op (Bp ++ B) := by
  split
  · rename_i hempty
    obtain rfl := List.isEmpty_iff.1 hempty
    cases hpay
    exact .single (by simpa using hround) hparts
  · let part : Part := ⟨J, Z ++ ahead, pay, [], Op, Bp⟩
    have honly : Stmt.Formed R J Z (some (.toConsensus roundLoc t)) (.only loc who part.code) [part]
        [] part.exports part.binders := by
      refine .only ⟨List.Subset.refl _, List.Subset.refl _⟩ rfl fun k hk => ?_
      obtain ⟨hjoin, rfl⟩ := hahead k hk
      exact ⟨roundLoc, t, rfl, hwho, hjoin, rfl⟩
    have hcons : Code.Formed R J Z (.only loc who part.code :: [.toConsensus roundLoc t]) ([] ++ E)
        (part.exports ++ []) (part.binders ++ B) :=
      .cons honly (by simpa [part] using hpay) (.single hround hparts)
    simpa [part] using hcons

/-- A round with the code before it, from its parts. -/
theorem round_formed (loc roundLoc : Loc) {t : Transition} {delay pay : Code}
    {late : Option (Arg × Part)} {body : Part} {Op Ol Bp Bl : List Known}
    (haddress : t.whoVar.type = .address)
    (hjoined : t.join = false → (t.who, t.whoVar) ∈ J ∧ R.Sees X .pub t.whoVar)
    (hmessages : ∀ m ∈ t.messages, m.1.Formed R X .pub ∧ m.1.type = m.2.type)
    (hpay : Code.Formed R J (X ++ joinedAddress t.join t.whoVar) pay [] Op Bp)
    (hamount : t.amount.Formed R (X ++ joinedAddress t.join t.whoVar ++ Op) .pub)
    (hamountType : t.amount.type = .uint256) (hdelay : Code.Formed R J X delay [] Ol Bl)
    (hlate : ∀ l, late = some l → l.1.Formed R (X ++ Ol) .pub ∧ l.1.type = .uint256 ∧
      l.2.Fits J (X ++ Ol) ∧
      Code.Formed R l.2.joined l.2.known l.2.code l.2.returns l.2.exports l.2.binders)
    (htimeout : t.timeout = late.map fun l => { delay := l.1, body := l.2.code })
    (hfits : body.Fits ((t.who, t.whoVar) :: J) (X ++ t.learned)) (hbody : t.body = body.code)
    (hinside : Code.Formed R body.joined body.known body.code body.returns body.exports
      body.binders) :
    Code.Formed R J X
      (delay ++ ((if pay.isEmpty then [] else [.only loc t.who pay]) ++ [.toConsensus roundLoc t]))
      ((late.toList.map (·.2) ++ [body]).flatMap Part.returns) (Ol ++ Op)
      (Bl ++ (Bp ++ (t.learned ++ (late.toList.map (·.2) ++ [body]).flatMap Part.binders))) := by
  have hlateSub : X ++ Ol ⊆ X ++ Ol ++ Op := List.subset_append_left _ _
  have hsub : X ⊆ X ++ Ol ++ Op := List.Subset.trans (List.subset_append_left X Ol) hlateSub
  have hround : Stmt.Formed R J (X ++ Ol ++ Op) none (.toConsensus roundLoc t)
      (late.toList.map (·.2) ++ [body]) ((late.toList.map (·.2) ++ [body]).flatMap Part.returns)
      [] (t.learned ++ (late.toList.map (·.2) ++ [body]).flatMap Part.binders) := by
    refine .toConsensus haddress ?_ ?_ ?_ hamountType ?_ htimeout
      ⟨hfits.1, List.Subset.trans hfits.2 (subset_append_right hsub)⟩ hbody
    · intro hold
      exact ⟨(hjoined hold).1, (hjoined hold).2.mono hsub .refl⟩
    · intro m hm
      exact ⟨(hmessages m hm).1.mono hsub .refl, (hmessages m hm).2⟩
    · refine hamount.amount hamountType fun k hk => ?_
      simp only [List.mem_append] at hk ⊢
      rcases hk with (hk | hk) | hk
      · exact .inr (.inl (.inl hk))
      · obtain ⟨_, rfl⟩ := mem_joinedAddress hk
        exact .inl haddress
      · exact .inr (.inr hk)
    · intro l hl
      obtain ⟨hdelay, hdelayType, hfits, _⟩ := hlate l hl
      exact ⟨hdelay.mono hlateSub .refl, hdelayType, hfits.mono (List.Subset.refl _) hlateSub⟩
  refine hdelay.append (payment_formed (hpay.mono (List.Subset.refl _) ?_) rfl
    (fun k hk => mem_joinedAddress hk) hround ?_)
  · exact subset_append_right (List.subset_append_left X Ol)
  · intro p hp
    simp only [List.mem_append, List.mem_map, Option.mem_toList, List.mem_singleton] at hp
    rcases hp with ⟨l, hl, rfl⟩ | rfl
    · exact (hlate l hl).2.2.2
    · exact hinside

/-- What a round with the code before it defines. -/
theorem count_definitions_round (loc roundLoc : Loc) (delay pay : Code) {t : Transition}
    {late : Option (Arg × Part)}
    (htimeout : t.timeout = late.map fun l => { delay := l.1, body := l.2.code }) (i : Nat) :
    (definitions (delay ++ ((if pay.isEmpty then [] else [.only loc t.who pay]) ++
      [.toConsensus roundLoc t]))).count i =
      (definitions delay).count i + (definitions pay).count i + (t.messages.map (·.2.id)).count i +
        (if t.join then [t.whoVar.id] else []).count i +
        ((late.toList.map (·.2)).flatMap fun p => definitions p.code).count i +
        (definitions t.body).count i := by
  have hpay : definitions (if pay.isEmpty then [] else [.only loc t.who pay]) = definitions pay := by
    split
    · rename_i hempty
      rw [List.isEmpty_iff.1 hempty]
    · simp [Stmt.defines, Stmt.inner, definitions]
  obtain ⟨who, join, whoVar, messages, amount, timeout, body⟩ := t
  simp only at htimeout hpay
  subst htimeout
  rw [definitions_append, definitions_append, hpay]
  cases late <;> simp [Stmt.defines, Stmt.inner, definitions, Nat.add_assoc]

theorem Evaluator.Sound.takeRound (hev : ev.Sound R) {before : Code} {roundLoc : Loc}
    {round : Round} {rest : List Surface.Stmt} {O B : List Known} (hstep : ctx.mode = .step parties)
    (hbefore : Emits R J X s s₁ before [] O B) (hmode : ctx.mode.Formed R J (X ++ O))
    (hscope : scope.Formed R (X ++ O)) (hround : R.Admits round.idents)
    (hrest : R.Admits (Surface.stmtsIdents rest)) :
    From s₁ (fun r s' => r.Ends R J X s s' ctx.mode scope.slot)
      (ev.takeRound ctx parties loc scope before roundLoc round rest) := by
  simp only [Round.idents, Regime.admits_append] at hround
  obtain ⟨⟨hpublish, hpay⟩, htimeout⟩ := hround
  have hparties : parties.Formed R J (X ++ O) := by
    rw [hstep] at hmode
    exact hmode
  refine .orFail fun view hview => (Ctx.messages_formed
    (hparties.views _ (OrderedMap.mem_of_get? hview)) hpublish).bind ?_
  rintro ⟨messages, sent⟩ s₂ ⟨hpublished, hsent, hle₂, hmessageIds⟩
  refine (Ctx.addressOf_formed hparties).bind ?_
  rintro ⟨join, whoVar⟩ s₃ ⟨haddressType, hjoined, hwho, hle₃, hwhoId⟩
  refine (joinedSender_formed (R := R) haddressType).bind fun sender s₄ hsender =>
    .keep Bindings.merge_yields fun shared hsharedEntries => ?_
  -- what the sender knows before the round, and everyone once it has taken place
  let own := X ++ O ++ joinedAddress join whoVar
  let everyone := X ++ O ++ (messages.map (fun m => .pub m.2) ++ joinedAddress join whoVar)
  have hown : X ++ O ⊆ own := List.subset_append_left _ _
  have hknown : X ++ O ⊆ everyone := List.subset_append_left _ _
  have hall : own ⊆ everyone := subset_append_left (List.subset_append_right _ _)
  have hsentFormed : sent.Formed R everyone :=
    sent_formed (by simpa using hsent) (List.Subset.trans (List.subset_append_left _ _)
      (List.subset_append_right _ _))
  have hsenderOwn : ∀ b, sender = some b → SecValue.Formed R own b.2 :=
    fun b hb => hsender.1 own b hb hwho
  have hsharedFormed : Bindings.Formed R everyone (shared.withSender sender) := by
    refine Bindings.Formed.withSender ?_ fun b hb => (hsenderOwn b hb).mono hall
    exact (hscope.env.mono hknown).of_append hsentFormed hsharedEntries
  refine .keep (roundViews_formed hparties.views hown hall hsentFormed hsenderOwn)
    fun views hviews => ?_
  have hconsensus : Parties.Formed R ((round.who, whoVar) :: J) everyone
      { joined := parties.joined.insertNew round.who whoVar, views } :=
    hparties.join hknown (hwho.mono hall .refl) haddressType hviews.1
  have hinside : Scope.Formed R everyone { scope with env := shared.withSender sender } :=
    ⟨hsharedFormed, (hscope.mono hknown).loopVars⟩
  -- the parts of the round
  refine (hev.payment (hmode.mono hown) hviews.2 hpay).andThen fun amount s₇ Op Bp hpayCode hpaid =>
    (hev.computes (hmode.mono hknown) hsharedFormed (amountCheck_admits hpay)).andThen
      fun check s₈ Oc Bc hcheckCode _ => (hev.deadline hmode hscope htimeout).bind
        fun late s₉ hlate => (hev.concludes (J := (round.who, whoVar) :: J)
          (by exact hconsensus.mono (List.subset_append_left _ Oc))
          (hinside.mono (List.subset_append_left _ Oc)) hrest).bind fun next s' hnext => .pure ?_
  obtain ⟨Ol, Bl, timeout, s₁₀, hlateCode, hle₁₀, htimeoutValue, hhandler, hhandlerIds,
    hhandlerReturned⟩ := hlate
  obtain ⟨En, On, Bn, hnextCode, hnextReturned, _⟩ := hnext
  let body : Part := ⟨(round.who, whoVar) :: J, everyone, check.code ++ next.code, [] ++ En,
    Oc ++ On, Bc ++ Bn⟩
  have hbody : Code.Formed R body.joined body.known body.code body.returns body.exports
      body.binders :=
    (hcheckCode.formed.mono (List.subset_cons_self _ _) (List.Subset.refl _)).append
      hnextCode.formed
  let transition : Transition :=
    { who := round.who, join, whoVar, messages, amount := amount.value, timeout := late.value.1,
      body := body.code }
  have hround := round_formed loc roundLoc (t := transition) haddressType hjoined hpublished
    hpayCode.formed hpaid.1 hpaid.2 hlateCode.formed hhandler htimeoutValue
    ⟨List.Subset.refl _, List.Subset.refl _⟩ rfl hbody
  have hcode := hbefore.formed.append hround
  have hle₁ := hbefore.le
  have hs₄ := hsender.2
  have hle₇ := hpayCode.le
  have hle₈ := hcheckCode.le
  have hle₉ := hlateCode.le
  have hle' := hnextCode.le
  refine ⟨_, _, _, ⟨by simpa [transition, body] using hcode, by omega, fun i => ?_⟩,
    by simpa [body] using hhandlerReturned.combine hnextReturned,
    fun e hone => absurd hone Exit.combine_ne_singleton, by simp [hstep, Mode.Private]⟩
  have hcount := count_definitions_round loc roundLoc late.code amount.code (t := transition)
    htimeoutValue i
  simp only [transition, body, definitions_append, List.count_append] at hcount
  simp only [definitions_append, List.count_append]
  have hbeforeOnce := hbefore.once i
  have hmessageOnce : (messages.map (·.2.id)).count i ≤ drawn s₁ s₂ i := hmessageIds i
  have hwhoOnce : (if join then [whoVar.id] else []).count i ≤ drawn s₂ s₃ i := hwhoId i
  have hpayOnce := hpayCode.once i
  have hcheckOnce := hcheckCode.once i
  have hdelayOnce := hlateCode.once i
  have hhandlerOnce := hhandlerIds i
  have hnextOnce := hnextCode.once i
  grind [drawn]

theorem Emits.fromConsensus {code : Code} {E : List Return} {O B : List Known}
    (h : Emits R J X s s' code E O B) : Emits R J X s s' [.fromConsensus loc code] E [] B := by
  let p : Part := ⟨J, X, code, E, O, B⟩
  have hstmt : Stmt.Formed R J X none (.fromConsensus loc p.code) [p] p.returns [] p.binders :=
    .fromConsensus ⟨List.Subset.refl _, List.Subset.refl _⟩
  refine .single hstmt (by simpa [p] using h.formed) h.le fun i => ?_
  have honce := h.once i
  simpa [p, Stmt.defines, Stmt.inner, definitions] using honce

theorem Evaluator.Sound.commitRound (hev : ev.Sound R) {opened : Bindings} {before : Code}
    {rest : List Surface.Stmt} {O B : List Known} (hmode : ctx.mode = .consensus opened parties)
    (hparties : parties.Formed R J (X ++ O)) (hbefore : Emits R J X s s₁ before [] O B)
    (hscope : scope.Formed R (X ++ O)) (hrest : R.Admits (Surface.stmtsIdents rest)) :
    From s₁ (fun r s' => r.Ends R J X s s' ctx.mode scope.slot)
      (ev.commitRound ctx opened parties loc scope before rest) := by
  refine .keep (OrderedMap.traverse_yields fun _ _ _ _ _ hmerge => (Bindings.merge_yields hmerge).2)
    fun views hmerged => ?_
  have hviewsFormed : ∀ e ∈ views.entries, Bindings.Formed R (X ++ O) e.2 := by
    intro e he
    obtain ⟨old, hold, hmerge⟩ := hmerged e he
    exact (hparties.views _ hold).merge (hscope.env.difference opened) hmerge
  have hstep : Mode.Formed R J (X ++ O) (.step { parties with views }) :=
    ⟨hparties.joined, hviewsFormed⟩
  refine (hev.concludes (by exact hstep) hscope hrest).bind fun next _ hnext => .pure ?_
  obtain ⟨E, On, Bn, hcode, hreturned, hexits, _⟩ := hnext
  refine ⟨_, _, _, hbefore.append hcode.fromConsensus, hreturned, fun e hone => ?_,
    by simp [hmode, Mode.Private]⟩
  refine (hexits e hone).mono ?_
  rw [List.append_assoc]
  refine subset_append_left (List.append_subset_of_subset_of_subset ?_ ?_)
  · exact List.Subset.trans hbefore.formed.exports_subset escaping_append_left
  · have hinside : escaping next.code Bn ⊆ escaping [.fromConsensus loc next.code] Bn := by
      intro k hk
      simpa [mem_escaping, Stmt.leaves] using hk
    exact List.Subset.trans hinside escaping_append_right

end Choreography
