import Choreography.Elaborate.Sequence
import Mathlib.Data.List.Forall2

/-!
The text of two runs that are compared. Where the runs are to differ in levels only, they have the same
text. Where they are to differ in empty statements only, the second text is the first one padded: empty
statements may be missing from it wherever the first has them, and it may have new ones wherever the
place admits them.

Some places do not. A return, a continue and an exit look whether anything follows them; an assignment
looks for the continue after it, and the variables of a loop look for the invariant and the loop. Once
a block or a conditional has been passed, all empty statements of the list have been dropped.
-/

namespace Choreography

/-- In what two runs may differ. -/
inductive Variation
  /-- Levels may be higher in the second. -/
  | levels
  /-- The second may lack empty statements, and it may have new ones. -/
  | padding

namespace Surface

/-! ### Places -/

/-- A place in a list of statements, by what has been passed there. -/
inductive Place
  | free
  /-- The statement before may want to be the last one. -/
  | last
  /-- The statement before wants to be followed by a certain one. -/
  | fixed
  /-- Empty statements make no difference any more. -/
  | loose

/-- The place after a statement. -/
def Place.after : Place → Stmt → Place
  | .loose, _ | _, .block _ | _, .branch .. => .loose
  | _, .ret .. | _, .cont _ | _, .expr .. | _, .methodCall .. => .last
  | _, .assign .. | _, .varDecl .. => .fixed
  | _, .constDecl .. | _, .function .. | _, .empty _ | _, .loop .. | _, .foreign .. => .free

/-- Whether an empty statement may be put in front of what stands at a place. -/
def Place.admits : Place → List Stmt → Bool
  | .loose, _ => true
  | .fixed, _ | .last, [] => false
  | _, .loop .. :: _ => false
  | _, _ => true

variable {V : Variation} {S : Stmt → Stmt → Prop} {p : Place} {L R : List Stmt}

/-- The second list has the statements of the first, each related to its counterpart by `S`. If padding
is what may vary, it may lack empty statements, and it may have new ones where the place admits them. -/
inductive Padding (V : Variation) (S : Stmt → Stmt → Prop) : Place → List Stmt → List Stmt → Prop
  | nil {p : Place} : Padding V S p [] []
  | drop {p : Place} {loc : Loc} {L R : List Stmt} (hV : V = .padding)
    (h : Padding V S (p.after (.empty loc)) L R) : Padding V S p (.empty loc :: L) R
  | insert {p : Place} {loc : Loc} {L R : List Stmt} (hV : V = .padding) (hadmits : p.admits L = true)
    (h : Padding V S p L R) : Padding V S p L (.empty loc :: R)
  | cons {p : Place} {s s' : Stmt} {L R : List Stmt} (hs : S s s')
    (h : Padding V S (p.after s) L R) : Padding V S p (s :: L) (s' :: R)

namespace Padding

/-- Lists of related statements, without any other difference. -/
theorem of_forall₂ (h : List.Forall₂ S L R) : Padding V S p L R := by
  induction h generalizing p with
  | nil => exact .nil
  | cons hs _ ih => exact .cons hs ih

/-- Where nothing may follow, nothing is added. -/
theorem nil_of_last (h : Padding V S .last [] R) : R = [] := by
  cases h with
  | nil => rfl
  | insert _ hadmits => simp [Place.admits] at hadmits

/-- Where a certain statement has to follow, its counterpart does. -/
theorem of_fixed {s : Stmt} (h : Padding V S .fixed (s :: L) R) (hs : s.isEmpty = false) :
    ∃ s' R', R = s' :: R' ∧ S s s' ∧ Padding V S (Place.fixed.after s) L R' := by
  cases h with
  | drop => simp [Stmt.isEmpty] at hs
  | insert _ hadmits => simp [Place.admits] at hadmits
  | cons hs h => exact ⟨_, _, rfl, hs, h⟩

/-- Nothing is put in front of a loop. -/
theorem of_loop {loc : Loc} {cond : Expr} {body : Stmt}
    (h : Padding V S .last (.loop loc cond body :: L) R) :
    ∃ s' R', R = s' :: R' ∧ S (.loop loc cond body) s' ∧ Padding V S .free L R' := by
  cases h with
  | insert _ hadmits => simp [Place.admits] at hadmits
  | cons hs h => exact ⟨_, _, rfl, hs, h⟩

/-- Where the statement before turns out not to be the last one, the place is free. -/
theorem free_of_last (h : Padding V S .last L R) : Padding V S .free L R := by
  generalize hp : Place.last = p at h
  induction h with
  | nil => exact .nil
  | drop hV h =>
    subst hp
    exact .drop hV h
  | @insert _ _ L _ hV hadmits _ ih =>
    refine .insert hV ?_ (ih hp)
    subst hp
    cases L with
    | nil => simp [Place.admits] at hadmits
    | cons s L => cases s <;> simp_all [Place.admits]
  | @cons _ s _ _ _ hs h =>
    subst hp
    refine .cons hs ?_
    cases s <;> exact h

/-- Past a block or a conditional, all other statements correspond to each other. -/
theorem dropEmpty (hempty : ∀ {s s'}, S s s' → s.isEmpty = s'.isEmpty)
    (h : Padding V S .loose L R) :
    List.Forall₂ S (Surface.dropEmpty L) (Surface.dropEmpty R) := by
  generalize hp : Place.loose = p at h
  induction h with
  | nil => exact .nil
  | drop _ _ ih =>
    subst hp
    exact ih rfl
  | insert _ _ _ ih => exact ih hp
  | cons hs _ ih =>
    subst hp
    have ih := ih rfl
    simp only [Surface.dropEmpty, List.filter_cons, hempty hs] at ih ⊢
    split
    · exact .cons hs ih
    · exact ih

end Padding

/-! ### Text -/

mutual

inductive Expr.Like (V : Variation) : Expr → Expr → Prop
  | ident {loc : Loc} {name : String} : Expr.Like V (.ident loc name) (.ident loc name)
  | int {loc : Loc} {text : String} {radix : Nat} :
    Expr.Like V (.int loc text radix) (.int loc text radix)
  | string {loc : Loc} {text : String} : Expr.Like V (.string loc text) (.string loc text)
  | bool {loc : Loc} {b : Bool} : Expr.Like V (.bool loc b) (.bool loc b)
  | null {loc : Loc} : Expr.Like V (.null loc) (.null loc)
  | array {loc : Loc} {es es' : List Expr} (h : List.Forall₂ (Expr.Like V) es es') :
    Expr.Like V (.array loc es) (.array loc es')
  | object {loc : Loc} {ps ps' : List Property} (h : List.Forall₂ (Property.Like V) ps ps') :
    Expr.Like V (.object loc ps) (.object loc ps')
  | call {loc : Loc} {callee callee' : Expr} {args args' : List Expr}
    (hcallee : Expr.Like V callee callee') (hargs : List.Forall₂ (Expr.Like V) args args') :
    Expr.Like V (.call loc callee args) (.call loc callee' args')
  | dot {loc : Loc} {base base' : Expr} {field : String} (h : Expr.Like V base base') :
    Expr.Like V (.dot loc base field) (.dot loc base' field)
  | index {loc : Loc} {base base' place place' : Expr} (hbase : Expr.Like V base base')
    (hplace : Expr.Like V place place') : Expr.Like V (.index loc base place) (.index loc base' place')
  | binary {loc : Loc} {op : BinaryOp} {lhs lhs' rhs rhs' : Expr} (hlhs : Expr.Like V lhs lhs')
    (hrhs : Expr.Like V rhs rhs') : Expr.Like V (.binary loc op lhs rhs) (.binary loc op lhs' rhs')
  | unary {loc : Loc} {op : UnaryOp} {operand operand' : Expr} (h : Expr.Like V operand operand') :
    Expr.Like V (.unary loc op operand) (.unary loc op operand')
  | paren {loc : Loc} {inner inner' : Expr} (h : Expr.Like V inner inner') :
    Expr.Like V (.paren loc inner) (.paren loc inner')
  | ternary {loc : Loc} {cond cond' onTrue onTrue' onFalse onFalse' : Expr}
    (hcond : Expr.Like V cond cond') (ht : Expr.Like V onTrue onTrue')
    (hf : Expr.Like V onFalse onFalse') :
    Expr.Like V (.ternary loc cond onTrue onFalse) (.ternary loc cond' onTrue' onFalse')
  | arrow {loc : Loc} {formals : List String} {body body' : Block} (h : Block.Like V body body') :
    Expr.Like V (.arrow loc formals body) (.arrow loc formals body')
  | function {loc : Loc} {name : Option String} {formals : List String} {body body' : Block}
    (h : Block.Like V body body') :
    Expr.Like V (.function loc name formals body) (.function loc name formals body')
  | foreign {loc : Loc} {what : ForeignExpr} : Expr.Like V (.foreign loc what) (.foreign loc what)

inductive PropertyName.Like (V : Variation) : PropertyName → PropertyName → Prop
  | ident {name : String} : PropertyName.Like V (.ident name) (.ident name)
  | string {text : String} : PropertyName.Like V (.string text) (.string text)
  | number {text : String} : PropertyName.Like V (.number text) (.number text)
  | computed {key key' : Expr} (h : Expr.Like V key key') :
    PropertyName.Like V (.computed key) (.computed key')

inductive Property.Like (V : Variation) : Property → Property → Prop
  | value {loc : Loc} {name name' : PropertyName} {e e' : Expr}
    (hname : PropertyName.Like V name name') (h : Expr.Like V e e') :
    Property.Like V (.value loc name e) (.value loc name' e')
  | shorthand {loc : Loc} {name : String} : Property.Like V (.shorthand loc name) (.shorthand loc name)
  | spread {loc : Loc} {base base' : Expr} (h : Expr.Like V base base') :
    Property.Like V (.spread loc base) (.spread loc base')
  | method {loc : Loc} {name : String} : Property.Like V (.method loc name) (.method loc name)

inductive Decl.Like (V : Variation) : Decl → Decl → Prop
  | mk {loc : Loc} {lhs : Expr} {init init' : Option Expr} (h : Option.Rel (Expr.Like V) init init') :
    Decl.Like V ⟨loc, lhs, init⟩ ⟨loc, lhs, init'⟩

inductive Block.Like (V : Variation) : Block → Block → Prop
  | mk {loc : Loc} {stmts stmts' : List Stmt} (h : Padding V (Stmt.Like V) .free stmts stmts') :
    Block.Like V ⟨loc, stmts⟩ ⟨loc, stmts'⟩

inductive Stmt.Like (V : Variation) : Stmt → Stmt → Prop
  | block {body body' : Block} (h : Block.Like V body body') : Stmt.Like V (.block body) (.block body')
  | constDecl {loc : Loc} {ds ds' : List Decl} (h : List.Forall₂ (Decl.Like V) ds ds') :
    Stmt.Like V (.constDecl loc ds) (.constDecl loc ds')
  | varDecl {loc : Loc} {ds ds' : List Decl} (h : List.Forall₂ (Decl.Like V) ds ds') :
    Stmt.Like V (.varDecl loc ds) (.varDecl loc ds')
  | function {loc : Loc} {name : Option String} {formals : List String} {body body' : Block}
    (h : Block.Like V body body') :
    Stmt.Like V (.function loc name formals body) (.function loc name formals body')
  | branch {loc : Loc} {cond cond' : Expr} {onTrue onTrue' : Stmt} {onFalse onFalse' : Option Stmt}
    (hcond : Expr.Like V cond cond') (ht : Stmt.Like V onTrue onTrue')
    (hf : Option.Rel (Stmt.Like V) onFalse onFalse') :
    Stmt.Like V (.branch loc cond onTrue onFalse) (.branch loc cond' onTrue' onFalse')
  | empty {loc loc' : Loc} (h : V = .levels → loc = loc') : Stmt.Like V (.empty loc) (.empty loc')
  | expr {loc : Loc} {e e' : Expr} (h : Expr.Like V e e') : Stmt.Like V (.expr loc e) (.expr loc e')
  | assign {loc : Loc} {op : AssignOp} {lhs rhs rhs' : Expr} (h : Expr.Like V rhs rhs') :
    Stmt.Like V (.assign loc op lhs rhs) (.assign loc op lhs rhs')
  | methodCall {loc : Loc} {callee callee' : Expr} {args args' : List Expr}
    (hcallee : Expr.Like V callee callee') (hargs : List.Forall₂ (Expr.Like V) args args') :
    Stmt.Like V (.methodCall loc callee args) (.methodCall loc callee' args')
  | ret {loc : Loc} {value value' : Option Expr} (h : Option.Rel (Expr.Like V) value value') :
    Stmt.Like V (.ret loc value) (.ret loc value')
  | cont {loc : Loc} : Stmt.Like V (.cont loc) (.cont loc)
  | loop {loc : Loc} {cond cond' : Expr} {body body' : Stmt} (hcond : Expr.Like V cond cond')
    (hbody : Stmt.Like V body body') : Stmt.Like V (.loop loc cond body) (.loop loc cond' body')
  | foreign {loc : Loc} {what : ForeignStmt} : Stmt.Like V (.foreign loc what) (.foreign loc what)

end

/-- The statements of the second run. -/
abbrev Stmts.Like (V : Variation) (L R : List Stmt) : Prop := Padding V (Stmt.Like V) .free L R

theorem Expr.Like.loc_eq {e e' : Expr} (h : e.Like V e') : e.loc = e'.loc := by
  cases h <;> rfl

theorem Stmt.Like.isEmpty_eq {s s' : Stmt} (h : s.Like V s') : s.isEmpty = s'.isEmpty := by
  cases h <;> rfl

theorem Stmt.Like.loc_eq {s s' : Stmt} (h : s.Like .levels s') : s.loc = s'.loc := by
  cases h with
  | block hbody =>
    cases hbody
    rfl
  | empty h => exact h rfl
  | _ => rfl

theorem Stmt.Like.single {s s' : Stmt} (h : s.Like V s') : Stmts.Like V [s] [s'] := .cons h .nil

theorem Padding.toList {s s' : Option Stmt} (h : Option.Rel (Stmt.Like V) s s') :
    Stmts.Like V s.toList s'.toList := by
  cases h with
  | none => exact .nil
  | some h => exact h.single

/-! ### Every text is like itself -/

mutual

theorem Expr.Like.refl : ∀ e : Expr, e.Like V e
  | .ident .. => .ident
  | .int .. => .int
  | .string .. => .string
  | .bool .. => .bool
  | .null _ => .null
  | .array _ es => .array (exprs_like_refl es)
  | .object _ ps => .object (props_like_refl ps)
  | .call _ callee args => .call (Expr.Like.refl callee) (exprs_like_refl args)
  | .dot _ base _ => .dot (Expr.Like.refl base)
  | .index _ base place => .index (Expr.Like.refl base) (Expr.Like.refl place)
  | .binary _ _ lhs rhs => .binary (Expr.Like.refl lhs) (Expr.Like.refl rhs)
  | .unary _ _ operand => .unary (Expr.Like.refl operand)
  | .paren _ inner => .paren (Expr.Like.refl inner)
  | .ternary _ cond onTrue onFalse =>
    .ternary (Expr.Like.refl cond) (Expr.Like.refl onTrue) (Expr.Like.refl onFalse)
  | .arrow _ _ body => .arrow (Block.Like.refl body)
  | .function _ _ _ body => .function (Block.Like.refl body)
  | .foreign .. => .foreign

theorem PropertyName.Like.refl : ∀ name : PropertyName, name.Like V name
  | .ident _ => .ident
  | .string _ => .string
  | .number _ => .number
  | .computed key => .computed (Expr.Like.refl key)

theorem Property.Like.refl : ∀ p : Property, p.Like V p
  | .value _ name e => .value (PropertyName.Like.refl name) (Expr.Like.refl e)
  | .shorthand .. => .shorthand
  | .spread _ base => .spread (Expr.Like.refl base)
  | .method .. => .method

theorem Decl.Like.refl : ∀ d : Decl, d.Like V d
  | ⟨_, _, none⟩ => .mk .none
  | ⟨_, _, some init⟩ => .mk (.some (Expr.Like.refl init))

theorem Block.Like.refl : ∀ b : Block, b.Like V b
  | ⟨_, stmts⟩ => .mk (stmts_like_refl stmts .free)

theorem Stmt.Like.refl : ∀ s : Stmt, s.Like V s
  | .block body => .block (Block.Like.refl body)
  | .constDecl _ ds => .constDecl (decls_like_refl ds)
  | .varDecl _ ds => .varDecl (decls_like_refl ds)
  | .function _ _ _ body => .function (Block.Like.refl body)
  | .branch _ cond onTrue none => .branch (Expr.Like.refl cond) (Stmt.Like.refl onTrue) .none
  | .branch _ cond onTrue (some onFalse) =>
    .branch (Expr.Like.refl cond) (Stmt.Like.refl onTrue) (.some (Stmt.Like.refl onFalse))
  | .empty _ => .empty fun _ => rfl
  | .expr _ e => .expr (Expr.Like.refl e)
  | .assign _ _ _ rhs => .assign (Expr.Like.refl rhs)
  | .methodCall _ callee args => .methodCall (Expr.Like.refl callee) (exprs_like_refl args)
  | .ret _ none => .ret .none
  | .ret _ (some value) => .ret (.some (Expr.Like.refl value))
  | .cont _ => .cont
  | .loop _ cond body => .loop (Expr.Like.refl cond) (Stmt.Like.refl body)
  | .foreign .. => .foreign

theorem exprs_like_refl : ∀ es : List Expr, List.Forall₂ (Expr.Like V) es es
  | [] => .nil
  | e :: es => .cons (Expr.Like.refl e) (exprs_like_refl es)

theorem props_like_refl : ∀ ps : List Property, List.Forall₂ (Property.Like V) ps ps
  | [] => .nil
  | p :: ps => .cons (Property.Like.refl p) (props_like_refl ps)

theorem decls_like_refl : ∀ ds : List Decl, List.Forall₂ (Decl.Like V) ds ds
  | [] => .nil
  | d :: ds => .cons (Decl.Like.refl d) (decls_like_refl ds)

theorem stmts_like_refl : ∀ (stmts : List Stmt) (p : Place), Padding V (Stmt.Like V) p stmts stmts
  | [], _ => .nil
  | s :: rest, p => .cons (Stmt.Like.refl s) (stmts_like_refl rest (p.after s))

end

/-! ### Where only levels vary, the text is the same -/

mutual

theorem Expr.Like.eq : ∀ e e' : Expr, e.Like .levels e' → e = e'
  | .ident .., _, h | .int .., _, h | .string .., _, h | .bool .., _, h | .null _, _, h
  | .foreign .., _, h => by
    cases h
    rfl
  | .array _ es, _, .array h => by rw [exprs_like_eq es _ h]
  | .object _ ps, _, .object h => by rw [props_like_eq ps _ h]
  | .call _ callee args, _, .call h hargs => by rw [Expr.Like.eq callee _ h, exprs_like_eq args _ hargs]
  | .dot _ base _, _, .dot h => by rw [Expr.Like.eq base _ h]
  | .index _ base place, _, .index h h' => by rw [Expr.Like.eq base _ h, Expr.Like.eq place _ h']
  | .binary _ _ lhs rhs, _, .binary h h' => by rw [Expr.Like.eq lhs _ h, Expr.Like.eq rhs _ h']
  | .unary _ _ operand, _, .unary h => by rw [Expr.Like.eq operand _ h]
  | .paren _ inner, _, .paren h => by rw [Expr.Like.eq inner _ h]
  | .ternary _ cond onTrue onFalse, _, .ternary h ht hf => by
    rw [Expr.Like.eq cond _ h, Expr.Like.eq onTrue _ ht, Expr.Like.eq onFalse _ hf]
  | .arrow _ _ body, _, .arrow h => by rw [Block.Like.eq body _ h]
  | .function _ _ _ body, _, .function h => by rw [Block.Like.eq body _ h]

theorem PropertyName.Like.eq : ∀ name name' : PropertyName, name.Like .levels name' → name = name'
  | .ident _, _, .ident | .string _, _, .string | .number _, _, .number => rfl
  | .computed key, _, .computed h => by rw [Expr.Like.eq key _ h]

theorem Property.Like.eq : ∀ p p' : Property, p.Like .levels p' → p = p'
  | .value _ name e, _, .value hname h => by rw [PropertyName.Like.eq name _ hname, Expr.Like.eq e _ h]
  | .shorthand .., _, .shorthand | .method .., _, .method => rfl
  | .spread _ base, _, .spread h => by rw [Expr.Like.eq base _ h]

theorem Decl.Like.eq : ∀ d d' : Decl, d.Like .levels d' → d = d'
  | ⟨_, _, none⟩, _, .mk .none => rfl
  | ⟨_, _, some init⟩, _, .mk (.some h) => by rw [Expr.Like.eq init _ h]

theorem Block.Like.eq : ∀ b b' : Block, b.Like .levels b' → b = b'
  | ⟨_, stmts⟩, _, .mk h => by rw [stmts_like_eq stmts _ _ h]

theorem Stmt.Like.eq : ∀ s s' : Stmt, s.Like .levels s' → s = s'
  | .block body, _, .block h => by rw [Block.Like.eq body _ h]
  | .constDecl _ ds, _, .constDecl h => by rw [decls_like_eq ds _ h]
  | .varDecl _ ds, _, .varDecl h => by rw [decls_like_eq ds _ h]
  | .function _ _ _ body, _, .function h => by rw [Block.Like.eq body _ h]
  | .branch _ cond onTrue none, _, .branch h ht .none => by
    rw [Expr.Like.eq cond _ h, Stmt.Like.eq onTrue _ ht]
  | .branch _ cond onTrue (some onFalse), _, .branch h ht (.some hf) => by
    rw [Expr.Like.eq cond _ h, Stmt.Like.eq onTrue _ ht, Stmt.Like.eq onFalse _ hf]
  | .empty _, _, .empty h => by rw [h rfl]
  | .expr _ e, _, .expr h => by rw [Expr.Like.eq e _ h]
  | .assign _ _ _ rhs, _, .assign h => by rw [Expr.Like.eq rhs _ h]
  | .methodCall _ callee args, _, .methodCall h hargs => by
    rw [Expr.Like.eq callee _ h, exprs_like_eq args _ hargs]
  | .ret _ none, _, .ret .none => rfl
  | .ret _ (some value), _, .ret (.some h) => by rw [Expr.Like.eq value _ h]
  | .cont _, _, .cont => rfl
  | .loop _ cond body, _, .loop h hbody => by rw [Expr.Like.eq cond _ h, Stmt.Like.eq body _ hbody]
  | .foreign .., _, .foreign => rfl

theorem exprs_like_eq : ∀ es es' : List Expr, List.Forall₂ (Expr.Like .levels) es es' → es = es'
  | [], _, .nil => rfl
  | e :: es, _, .cons h hes => by rw [Expr.Like.eq e _ h, exprs_like_eq es _ hes]

theorem props_like_eq : ∀ ps ps' : List Property,
    List.Forall₂ (Property.Like .levels) ps ps' → ps = ps'
  | [], _, .nil => rfl
  | p :: ps, _, .cons h hps => by rw [Property.Like.eq p _ h, props_like_eq ps _ hps]

theorem decls_like_eq : ∀ ds ds' : List Decl, List.Forall₂ (Decl.Like .levels) ds ds' → ds = ds'
  | [], _, .nil => rfl
  | d :: ds, _, .cons h hds => by rw [Decl.Like.eq d _ h, decls_like_eq ds _ hds]

theorem stmts_like_eq : ∀ (L R : List Stmt) (p : Place),
    Padding .levels (Stmt.Like .levels) p L R → L = R
  | [], _, _, h => by
    cases h with
    | nil => rfl
    | insert hV => cases hV
  | s :: L, _, p, h => by
    cases h with
    | drop hV => cases hV
    | insert hV => cases hV
    | cons hs h => rw [Stmt.Like.eq s _ hs, stmts_like_eq L _ _ h]

end

end Surface

end Choreography
