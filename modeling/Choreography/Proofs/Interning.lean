import Choreography.Proofs.TypeTrees
import Choreography.Ty.Store
import Mathlib.Data.List.Induction
import Mathlib.Data.List.Nodup
import Mathlib.Data.List.Perm.Basic
import Mathlib.Logic.Relation

/-!
Types in a store. Whoever calls the constructors, in whatever order and with whatever numbers
earlier calls have given, gets one number for one type: two results are the same number exactly when
the types that were asked for are the same up to the order of the fields of objects. Numbers keep
what they stand for, and the components of a type have smaller numbers than the type.

All this rests on the keys: a key determines the node that it was written from, whatever text the
names of fields and variables hold.
-/

namespace Choreography.Ty

/-! ### Keys -/

/-- A part that ends at the first character of another kind can be read back. -/
theorem append_cons_inj_of_all {p : Char → Bool} {xs ys rest rest' : List Char} {c c' : Char}
    (hxs : ∀ x ∈ xs, p x = true) (hys : ∀ y ∈ ys, p y = true) (hc : p c = false) (hc' : p c' = false)
    (h : xs ++ c :: rest = ys ++ c' :: rest') : xs = ys ∧ c = c' ∧ rest = rest' := by
  induction xs generalizing ys with
  | nil =>
    cases ys with
    | nil => simpa using h
    | cons y ys =>
      obtain ⟨rfl, _⟩ := List.cons.inj h
      simp [hys c List.mem_cons_self] at hc
  | cons x xs ih =>
    cases ys with
    | nil =>
      obtain ⟨rfl, _⟩ := List.cons.inj h
      simp [hxs x List.mem_cons_self] at hc'
    | cons y ys =>
      obtain ⟨rfl, htail⟩ := List.cons.inj h
      obtain ⟨rfl, hrest⟩ := ih (fun z hz => hxs z (List.mem_cons_of_mem _ hz))
        (fun z hz => hys z (List.mem_cons_of_mem _ hz)) htail
      exact ⟨rfl, hrest⟩

/-- The digits of a number. -/
def digits (n : Nat) : List Char := (toString n).toList

theorem isDigit_of_mem_digits {n : Nat} : ∀ c ∈ digits n, c.isDigit = true := by
  intro c hc
  rw [digits, Nat.toString_eq_ofList_toDigits, String.toList_ofList] at hc
  exact Nat.isDigit_of_mem_toDigits (by decide) (by decide) hc

theorem digits_ne_nil {n : Nat} : digits n ≠ [] := by
  rw [digits, Nat.toString_eq_ofList_toDigits, String.toList_ofList]
  exact Nat.toDigits_ne_nil

theorem digits_append_inj {m n : Nat} {c c' : Char} {rest rest' : List Char}
    (hc : c.isDigit = false) (hc' : c'.isDigit = false)
    (h : digits m ++ c :: rest = digits n ++ c' :: rest') : m = n ∧ rest = rest' := by
  obtain ⟨hdigits, _, hrest⟩ :=
    append_cons_inj_of_all isDigit_of_mem_digits isDigit_of_mem_digits hc hc' h
  refine ⟨?_, hrest⟩
  rw [digits, digits, Nat.toString_eq_ofList_toDigits, Nat.toString_eq_ofList_toDigits,
    String.toList_ofList, String.toList_ofList] at hdigits
  rw [← Nat.ofDigitChars_ten_toDigits (n := m), hdigits, Nat.ofDigitChars_ten_toDigits]

/-- What begins with a number does not begin with a semicolon. -/
theorem digits_append_ne {n : Nat} {more rest : List Char} : digits n ++ more ≠ ';' :: rest := by
  intro h
  obtain ⟨d, ds, hd⟩ := List.exists_cons_of_ne_nil (digits_ne_nil (n := n))
  rw [hd] at h
  obtain ⟨rfl, _⟩ := List.cons.inj h
  have := isDigit_of_mem_digits (n := n) ';' (by simp [hd])
  simp at this

/-- Numbers as a key lists them. -/
def listed (ids : List Id) : List Char := ids.flatMap fun id => digits id ++ [',']

theorem listed_append_inj : ∀ (ids ids' : List Id) {rest rest' : List Char},
    listed ids ++ ';' :: rest = listed ids' ++ ';' :: rest' → ids = ids' ∧ rest = rest'
  | [], [], _, _, h => by simpa [listed] using h
  | [], _ :: _, _, _, h => by
    simp only [listed, List.flatMap_nil, List.nil_append, List.flatMap_cons, List.append_assoc] at h
    exact absurd h.symm digits_append_ne
  | _ :: _, [], _, _, h => by
    simp only [listed, List.flatMap_nil, List.nil_append, List.flatMap_cons, List.append_assoc] at h
    exact absurd h digits_append_ne
  | id :: ids, id' :: ids', rest, rest', h => by
    simp only [listed, List.flatMap_cons, List.append_assoc, List.cons_append, List.nil_append] at h
    obtain ⟨rfl, hmore⟩ := digits_append_inj (by decide) (by decide) h
    obtain ⟨rfl, hrest⟩ := listed_append_inj ids ids' hmore
    exact ⟨rfl, hrest⟩

/-- Names of the same length can be read back from what follows them, whatever text they hold. -/
theorem name_append_inj {name name' : String} {rest rest' : List Char}
    (hsize : name.utf8ByteSize = name'.utf8ByteSize)
    (h : name.toList ++ rest = name'.toList ++ rest') : name = name' ∧ rest = rest' := by
  have hempty : ∀ {a b : String} {more : List Char}, a.utf8ByteSize = b.utf8ByteSize →
      b.toList = a.toList ++ more → more = [] := by
    intro a b more hsize hmore
    have hb : b = a ++ String.ofList more := by
      rw [← String.toList_inj, String.toList_append, String.toList_ofList, hmore]
    rw [hb, String.utf8ByteSize_append, Nat.left_eq_add] at hsize
    simpa using hsize
  rcases List.append_eq_append_iff.1 h with ⟨more, hname, hrest⟩ | ⟨more, hname, hrest⟩
  · obtain rfl := hempty hsize hname
    exact ⟨(String.toList_inj.1 (by simpa using hname)).symm, by simpa using hrest⟩
  · obtain rfl := hempty hsize.symm hname
    exact ⟨String.toList_inj.1 (by simpa using hname), by simpa using hrest.symm⟩

/-- Fields as a key lists them. -/
def listedFields (fields : List (String × Id)) : List Char :=
  fields.flatMap fun f => digits f.1.utf8ByteSize ++ ':' :: (f.1.toList ++ '=' :: (digits f.2 ++ [',']))

theorem listedFields_append_inj : ∀ (fields fields' : List (String × Id)) {rest rest' : List Char},
    listedFields fields ++ ';' :: rest = listedFields fields' ++ ';' :: rest' →
    fields = fields' ∧ rest = rest'
  | [], [], _, _, h => by simpa [listedFields] using h
  | [], _ :: _, _, _, h => by
    simp only [listedFields, List.flatMap_nil, List.nil_append, List.flatMap_cons,
      List.append_assoc] at h
    exact absurd h.symm digits_append_ne
  | _ :: _, [], _, _, h => by
    simp only [listedFields, List.flatMap_nil, List.nil_append, List.flatMap_cons,
      List.append_assoc] at h
    exact absurd h digits_append_ne
  | f :: fields, f' :: fields', rest, rest', h => by
    simp only [listedFields, List.flatMap_cons, List.append_assoc, List.cons_append,
      List.nil_append] at h
    obtain ⟨hsize, h⟩ := digits_append_inj (by decide) (by decide) h
    obtain ⟨hname, h⟩ := name_append_inj hsize h
    obtain ⟨hid, hmore⟩ := digits_append_inj (by decide) (by decide) (List.cons.inj h).2
    obtain ⟨rfl, hrest⟩ := listedFields_append_inj fields fields' hmore
    obtain rfl : f = f' := Prod.ext hname hid
    exact ⟨rfl, hrest⟩

namespace Layer

variable {κ κ' κ'' : Type} {f g : κ → κ'}

/-- A layer is determined by its kind and its parts. -/
theorem eq_of_parts {a b : Layer κ} (hkind : a.kind = b.kind) (helems : a.elems = b.elems)
    (hinner : a.inner? = b.inner?) (hsize : a.size = b.size) (hfields : a.fields = b.fields)
    (hname : a.name = b.name) : a = b := by
  cases a <;> cases b <;> simp_all [kind, elems, inner?, size, fields, name]

theorem inner?_isSome (layer : Layer κ) : layer.inner?.isSome = [5, 6, 9].contains layer.kind := by
  cases layer <;> rfl

/-- The kind of a layer tells whether a component stands alone in it, so that a default may be
written where there is none. -/
theorem inner?_eq_of_getD {a b : Layer κ} {d : κ} (hkind : a.kind = b.kind)
    (h : a.inner?.getD d = b.inner?.getD d) : a.inner? = b.inner? := by
  have hsome : a.inner?.isSome = b.inner?.isSome := by rw [inner?_isSome, inner?_isSome, hkind]
  cases ha : a.inner? <;> cases hb : b.inner? <;> simp_all

end Layer

theorem Node.key_toList (node : Node) : node.key.toList =
    digits node.kind ++ '(' :: (listed node.elems ++ ';' :: (digits (node.inner?.getD 0) ++ ';' ::
      (digits node.size ++ ';' :: (listedFields node.fields ++ ';' :: (node.name.toList ++ [')']))))) := by
  simp [Node.key, digits, listed, listedFields, String.toList_append, String.toList_join,
    List.flatMap_map]

/-- Nodes with one key are one node. -/
theorem Node.key_inj {a b : Node} : a.key = b.key ↔ a = b := by
  refine ⟨fun h => ?_, fun h => by rw [h]⟩
  rw [← String.toList_inj, key_toList, key_toList] at h
  obtain ⟨hkind, h⟩ := digits_append_inj (by decide) (by decide) h
  obtain ⟨helems, h⟩ := listed_append_inj _ _ h
  obtain ⟨hinner, h⟩ := digits_append_inj (by decide) (by decide) h
  obtain ⟨hsize, h⟩ := digits_append_inj (by decide) (by decide) h
  obtain ⟨hfields, h⟩ := listedFields_append_inj _ _ h
  have hname : a.name = b.name := String.toList_inj.1 (List.append_cancel_right h)
  exact Layer.eq_of_parts hkind helems (Layer.inner?_eq_of_getD hkind hinner) hsize hfields hname

/-! ### Layers -/

namespace Layer

variable {κ κ' κ'' : Type} {f g : κ → κ'}

/-- The components of a layer. -/
def components (layer : Layer κ) : List κ :=
  layer.elems ++ layer.inner?.toList ++ layer.fields.map (·.2)

@[simp] theorem components_object (fields : List (String × κ)) :
    (object fields).components = fields.map (·.2) := rfl

theorem map_map (layer : Layer κ) (f : κ → κ') (g : κ' → κ'') :
    (layer.map f).map g = layer.map (g ∘ f) := by
  cases layer <;> simp [map]

@[simp] theorem map_id (layer : Layer κ) : layer.map id = layer := by
  cases layer <;> simp [map]

theorem map_congr {layer : Layer κ} (h : ∀ c ∈ layer.components, f c = g c) :
    layer.map f = layer.map g := by
  cases layer with
  | object fields =>
    simp only [map, object.injEq]
    refine List.map_congr_left fun b hb => ?_
    rw [h b.2 (List.mem_map_of_mem hb)]
  | _ => simp_all [map, components, elems, inner?, fields]

@[simp] theorem kind_map (layer : Layer κ) : (layer.map f).kind = layer.kind := by cases layer <;> rfl

@[simp] theorem elems_map (layer : Layer κ) : (layer.map f).elems = layer.elems.map f := by
  cases layer <;> rfl

@[simp] theorem inner?_map (layer : Layer κ) : (layer.map f).inner? = layer.inner?.map f := by
  cases layer <;> rfl

@[simp] theorem size_map (layer : Layer κ) : (layer.map f).size = layer.size := by cases layer <;> rfl

@[simp] theorem fields_map (layer : Layer κ) :
    (layer.map f).fields = layer.fields.map fun b => (b.1, f b.2) := by
  cases layer <;> rfl

@[simp] theorem name_map (layer : Layer κ) : (layer.map f).name = layer.name := by cases layer <;> rfl

theorem components_map (layer : Layer κ) : (layer.map f).components = layer.components.map f := by
  simp [components, Function.comp_def, Option.toList_map]

theorem mem_components_sorted {layer : Layer κ} {c : κ} :
    c ∈ layer.sorted.components ↔ c ∈ layer.components := by
  cases layer with
  | object fields => simp [sorted, sortFields]
  | _ => rfl

/-- Sorting looks at names only. -/
theorem sorted_map (layer : Layer κ) : (layer.map f).sorted = layer.sorted.map f := by
  cases layer with
  | object fields =>
    simp only [sorted, map, object.injEq]
    exact (List.map_mergeSort (f := fun b : String × κ => (b.1, f b.2)) fun _ _ _ _ => rfl).symm
  | _ => rfl

theorem toTy_inj {a b : Layer Ty} : a.toTy = b.toTy ↔ a = b := by
  refine ⟨fun h => ?_, fun h => by rw [h]⟩
  cases a <;> cases b <;> simp_all [toTy]

theorem eq_of_map_eq {α β : Type} {f : α → β} : ∀ {xs ys : List α},
    (∀ x ∈ xs, ∀ y ∈ ys, f x = f y → x = y) → xs.map f = ys.map f → xs = ys
  | [], ys, _, h => by simpa using h
  | _ :: _, [], _, h => by simp at h
  | x :: xs, y :: ys, hinj, h => by
    simp only [List.map_cons, List.cons.injEq] at h
    have hrest := eq_of_map_eq (fun x' hx' y' hy' =>
      hinj x' (List.mem_cons_of_mem _ hx') y' (List.mem_cons_of_mem _ hy')) h.2
    rw [hinj x List.mem_cons_self y List.mem_cons_self h.1, hrest]

/-- Layers are the same when they are the same over other components that tell theirs apart. -/
theorem eq_of_map_components {a b : Layer κ}
    (hinj : ∀ c ∈ a.components, ∀ c' ∈ b.components, f c = f c' → c = c') (h : a.map f = b.map f) :
    a = b := by
  refine eq_of_parts ?_ (eq_of_map_eq (f := f) (fun x hx y hy => hinj x ?_ y ?_) ?_) ?_ ?_
    (eq_of_map_eq (f := fun b : String × κ => (b.1, f b.2)) (fun x hx y hy heq => ?_) ?_) ?_
  · simpa using congrArg kind h
  · simp [components, hx]
  · simp [components, hy]
  · simpa using congrArg elems h
  · have hmap : a.inner?.map f = b.inner?.map f := by simpa using congrArg inner? h
    cases ha : a.inner? with
    | none => rw [ha] at hmap; exact (Option.map_eq_none_iff.1 hmap.symm).symm
    | some x =>
      rw [ha] at hmap
      obtain ⟨y, hb, heq⟩ := Option.map_eq_some_iff.1 hmap.symm
      rw [hb, hinj x (by simp [components, ha]) y (by simp [components, hb]) heq.symm]
  · simpa using congrArg size h
  · obtain ⟨hname, hvalue⟩ := Prod.mk.inj heq
    refine Prod.ext hname (hinj _ ?_ _ ?_ hvalue)
    · exact List.mem_append_right _ (List.mem_map_of_mem hx)
    · exact List.mem_append_right _ (List.mem_map_of_mem hy)
  · simpa using congrArg fields h
  · simpa using congrArg name h

end Layer

/-! ### Trees up to the order of fields -/

theorem pairwise_sortFields {α : Type} (fields : List (String × α)) :
    (sortFields fields).Pairwise (·.1 ≤ ·.1) := by
  let byName : String × α → String × α → Bool := fun a b => decide (a.1 ≤ b.1)
  have htrans : ∀ a b c, byName a b → byName b c → byName a c := by
    intro a b c hab hbc
    simp only [byName, decide_eq_true_eq] at hab hbc ⊢
    exact String.le_trans hab hbc
  have htotal : ∀ a b, byName a b || byName b a := fun a b => by
    simpa [byName] using String.le_total a.1 b.1
  have hsorted := List.pairwise_mergeSort htrans htotal fields
  simpa [sortFields, byName] using hsorted

/-- Fields of different names come into one order, whatever their order was. -/
theorem sortFields_eq_of_perm {α : Type} {fields fields' : List (String × α)}
    (hnames : (fields.map (·.1)).Nodup) (h : fields.Perm fields') :
    sortFields fields = sortFields fields' := by
  have hperm : (sortFields fields).Perm fields := List.mergeSort_perm _ _
  have hperm' : (sortFields fields').Perm fields' := List.mergeSort_perm _ _
  refine List.Perm.eq_of_pairwise (fun a b ha hb hab hba => ?_) (pairwise_sortFields fields)
    (pairwise_sortFields fields') (hperm.trans (h.trans hperm'.symm))
  exact List.inj_on_of_nodup_map hnames (hperm.mem_iff.1 ha) (h.mem_iff.2 (hperm'.mem_iff.1 hb))
    (String.le_antisymm hab hba)

/-- Trees that differ in the order of the fields of their objects only: the layers are the same, over
components that are alike, and the fields of an object may be put in any order. -/
inductive Alike : Ty → Ty → Prop
  | layer {pairs : Layer (Ty × Ty)} (h : ∀ pair ∈ pairs.components, Alike pair.1 pair.2) :
    Alike (pairs.map (·.1)).toTy (pairs.map (·.2)).toTy
  | perm {fields fields' : List (String × Ty)} (h : fields.Perm fields') :
    Alike (.object fields) (.object fields')
  | trans {t u v : Ty} (htu : Alike t u) (huv : Alike u v) : Alike t v

/-- No object of the tree has two fields of one name. -/
inductive Distinct : Ty → Prop
  | layer {layer : Layer Ty} (hnames : (layer.fields.map (·.1)).Nodup)
    (h : ∀ c ∈ layer.components, Distinct c) : Distinct layer.toTy

mutual

/-- The tree with the fields of all objects in the order of their names. -/
def arrange : Ty → Ty
  | .func dom rng => .func (arrangeList dom) (arrange rng)
  | .array elem size => .array (arrange elem) size
  | .tuple elems => .tuple (arrangeList elems)
  | .object fields => objectOf (arrangeFields fields)
  | .forAll name body => .forAll name (arrange body)
  | .null => .null
  | .bool => .bool
  | .uint256 => .uint256
  | .bytes => .bytes
  | .address => .address
  | .var name => .var name

def arrangeList : List Ty → List Ty
  | [] => []
  | t :: ts => arrange t :: arrangeList ts

def arrangeFields : List (String × Ty) → List (String × Ty)
  | [] => []
  | (name, t) :: fields => (name, arrange t) :: arrangeFields fields

end

theorem arrangeList_eq_map (ts : List Ty) : arrangeList ts = ts.map arrange := by
  induction ts with
  | nil => rfl
  | cons t ts ih => rw [arrangeList, ih]; rfl

theorem arrangeFields_eq_map (fields : List (String × Ty)) :
    arrangeFields fields = fields.map fun b => (b.1, arrange b.2) := by
  induction fields with
  | nil => rfl
  | cons field fields ih => rw [arrangeFields, ih]; rfl

theorem arrange_toTy (layer : Layer Ty) : layer.toTy.arrange = (layer.map arrange).sorted.toTy := by
  cases layer <;>
    simp [Layer.toTy, Layer.map, Layer.sorted, arrange, arrangeList_eq_map, arrangeFields_eq_map,
      objectOf]

theorem exists_layer (t : Ty) : ∃ layer : Layer Ty, layer.toTy = t := by
  cases t with
  | null => exact ⟨.null, rfl⟩
  | bool => exact ⟨.bool, rfl⟩
  | uint256 => exact ⟨.uint256, rfl⟩
  | bytes => exact ⟨.bytes, rfl⟩
  | address => exact ⟨.address, rfl⟩
  | func dom rng => exact ⟨.func dom rng, rfl⟩
  | array elem size => exact ⟨.array elem size, rfl⟩
  | tuple elems => exact ⟨.tuple elems, rfl⟩
  | object fields => exact ⟨.object fields, rfl⟩
  | forAll name body => exact ⟨.forAll name body, rfl⟩
  | var name => exact ⟨.var name, rfl⟩

theorem sizeOf_lt_of_mem_components {layer : Layer Ty} {c : Ty} (hc : c ∈ layer.components) :
    sizeOf c < sizeOf layer.toTy := by
  cases layer with
  | object fields =>
    obtain ⟨field, hfield, rfl⟩ := List.mem_map.1 (Layer.components_object fields ▸ hc)
    have hlt := List.sizeOf_lt_of_mem hfield
    obtain ⟨name, t⟩ := field
    simp only [Layer.toTy, object.sizeOf_spec, Prod.mk.sizeOf_spec] at hlt ⊢
    omega
  | func dom rng =>
    simp only [Layer.toTy, func.sizeOf_spec]
    rcases (by simpa [Layer.components, Layer.elems, Layer.inner?, Layer.fields] using hc :
      c ∈ dom ∨ c = rng) with hdom | rfl
    · have hlt := List.sizeOf_lt_of_mem hdom
      omega
    · omega
  | tuple elems =>
    have hlt := List.sizeOf_lt_of_mem
      (by simpa [Layer.components, Layer.elems, Layer.inner?, Layer.fields] using hc : c ∈ elems)
    simp only [Layer.toTy, tuple.sizeOf_spec]
    omega
  | array _ size | forAll name _ =>
    obtain rfl : c = _ := by
      simpa [Layer.components, Layer.elems, Layer.inner?, Layer.fields] using hc
    simp only [Layer.toTy, array.sizeOf_spec, forAll.sizeOf_spec]
    omega
  | _ => simp [Layer.components, Layer.elems, Layer.inner?, Layer.fields] at hc

/-- What holds of a tree whenever it holds of the components of its outermost layer holds of all. -/
theorem layer_induction {P : Ty → Prop}
    (h : ∀ layer : Layer Ty, (∀ c ∈ layer.components, P c) → P layer.toTy) (t : Ty) : P t := by
  obtain ⟨layer, rfl⟩ := exists_layer t
  exact h layer fun c hc => layer_induction h c
termination_by sizeOf t
decreasing_by
  subst_vars
  exact sizeOf_lt_of_mem_components hc

theorem Distinct.inv {layer : Layer Ty} (h : layer.toTy.Distinct) :
    (layer.fields.map (·.1)).Nodup ∧ ∀ c ∈ layer.components, c.Distinct := by
  generalize ht : layer.toTy = t at h
  cases h with
  | layer hnames hcomponents =>
    obtain rfl := Layer.toTy_inj.1 ht
    exact ⟨hnames, hcomponents⟩

namespace Alike

theorem of_map {κ : Type} {layer : Layer κ} {f g : κ → Ty}
    (h : ∀ c ∈ layer.components, (f c).Alike (g c)) :
    (layer.map f).toTy.Alike (layer.map g).toTy := by
  have hcomponents : ∀ pair ∈ (layer.map fun c => (f c, g c)).components, pair.1.Alike pair.2 := by
    intro pair hpair
    rw [Layer.components_map] at hpair
    obtain ⟨c, hc, rfl⟩ := List.mem_map.1 hpair
    exact h c hc
  have hpairs := Alike.layer hcomponents
  simpa [Layer.map_map, Function.comp_def] using hpairs

@[refl] theorem refl (t : Ty) : t.Alike t := by
  induction t using layer_induction with
  | h layer ih => simpa using of_map (f := id) (g := id) ih

theorem symm {t u : Ty} (h : t.Alike u) : u.Alike t := by
  induction h with
  | layer _ ih => exact of_map ih
  | perm h => exact .perm h.symm
  | trans _ _ ihtu ihuv => exact .trans ihuv ihtu

theorem sorted (layer : Layer Ty) : layer.toTy.Alike layer.sorted.toTy := by
  cases layer with
  | object fields => exact .perm (List.mergeSort_perm _ _).symm
  | _ => exact .refl _

theorem arrange (t : Ty) : t.Alike t.arrange := by
  induction t using layer_induction with
  | h layer ih =>
    rw [arrange_toTy]
    have hmap : layer.toTy.Alike (layer.map Ty.arrange).toTy := by
      simpa using of_map (f := id) (g := Ty.arrange) ih
    exact hmap.trans (sorted _)

theorem arrange_eq {t u : Ty} (h : t.Alike u) (hdistinct : t.Distinct) :
    u.Distinct ∧ t.arrange = u.arrange := by
  induction h with
  | @layer pairs h ih =>
    obtain ⟨hnames, hcomponents⟩ := hdistinct.inv
    rw [Layer.components_map] at hcomponents
    have ih : ∀ pair ∈ pairs.components, pair.2.Distinct ∧ pair.1.arrange = pair.2.arrange :=
      fun pair hpair => ih pair hpair (hcomponents _ (List.mem_map_of_mem hpair))
    refine ⟨.layer (by simpa [Function.comp_def] using hnames) fun c hc => ?_, ?_⟩
    · rw [Layer.components_map] at hc
      obtain ⟨pair, hpair, rfl⟩ := List.mem_map.1 hc
      exact (ih pair hpair).1
    · rw [arrange_toTy, arrange_toTy, Layer.map_map, Layer.map_map]
      exact congrArg (fun layer => layer.sorted.toTy) (Layer.map_congr fun pair hpair => (ih pair hpair).2)
  | @perm fields fields' h =>
    obtain ⟨hnames, hcomponents⟩ : (fields.map (·.1)).Nodup ∧ ∀ c ∈ fields.map (·.2), c.Distinct :=
      @Distinct.inv (.object fields) hdistinct
    refine ⟨@Distinct.layer (.object fields') ((h.map _).nodup_iff.1 hnames) fun c hc =>
      hcomponents c ((h.map _).mem_iff.2 hc), ?_⟩
    rw [Ty.arrange, Ty.arrange, objectOf, objectOf, arrangeFields_eq_map, arrangeFields_eq_map,
      sortFields_eq_of_perm _ (h.map _)]
    simpa [Function.comp_def, Layer.fields] using hnames
  | trans _ _ ihtu ihuv =>
    obtain ⟨hu, htu⟩ := ihtu hdistinct
    obtain ⟨hv, huv⟩ := ihuv hu
    exact ⟨hv, htu.trans huv⟩

end Alike

theorem Distinct.alike_iff {t u : Ty} (h : t.Distinct) : t.Alike u ↔ t.arrange = u.arrange :=
  ⟨fun halike => (halike.arrange_eq h).2,
    fun heq => (Alike.arrange t).trans (heq ▸ (Alike.arrange u).symm)⟩

/-! ### Stores -/

namespace Store

variable {store store' : Store} {node : Node} {id : Id}

/-- The table and the nodes agree, components come before what they are part of, and fields are in
ascending order. -/
structure WellFormed (store : Store) : Prop where
  table {node : Node} {id : Id} : store.table.lookup node.key = some id ↔ store.nodes[id]? = some node
  descends {id : Id} {node : Node} : store.nodes[id]? = some node → ∀ c ∈ node.components, c < id
  ascends {id : Id} {node : Node} : store.nodes[id]? = some node →
    (node.fields.map (·.1)).Pairwise (· < ·)

theorem WellFormed.lt_length (h : store.WellFormed) (hnode : store.nodes[id]? = some node) (c : Id)
    (hc : c ∈ node.components) : c < store.nodes.length :=
  Nat.lt_trans (h.descends hnode c hc) (List.getElem?_eq_some_iff.1 hnode).1

theorem wellFormed_empty : ({} : Store).WellFormed := by
  constructor <;> simp

theorem getElem?_concat_eq_some {α : Type} {xs : List α} {x y : α} {i : Nat} :
    (xs ++ [x])[i]? = some y ↔ xs[i]? = some y ∨ i = xs.length ∧ x = y := by
  rw [List.getElem?_append]
  split
  · rename_i hlt
    simp [Nat.ne_of_lt hlt]
  · rename_i hge
    rw [List.getElem?_singleton]
    have hnone : xs[i]? = none := List.getElem?_eq_none (Nat.le_of_not_lt hge)
    simp only [hnone]
    grind

/-- One call keeps the store well formed and what it holds, and gives a number of the node. -/
theorem WellFormed.intern (h : store.WellFormed)
    (hcomponents : ∀ c ∈ node.components, c < store.nodes.length)
    (hfields : (node.fields.map (·.1)).Pairwise (· < ·)) :
    (store.intern node).2.WellFormed ∧ store.nodes <+: (store.intern node).2.nodes ∧
      (store.intern node).2.nodes[(store.intern node).1]? = some node := by
  unfold Store.intern
  cases hlookup : store.table.lookup node.key with
  | some id => exact ⟨h, List.prefix_refl _, h.table.1 hlookup⟩
  | none =>
    have hnew : ∀ {id : Id}, store.nodes[id]? ≠ some node := fun hid => by
      rw [h.table.2 hid] at hlookup
      cases hlookup
    refine ⟨⟨fun {other id} => ?_, fun {id other} hother => ?_, fun {id other} hother => ?_⟩,
      List.prefix_append _ _, by simp⟩
    · rw [List.lookup_cons, getElem?_concat_eq_some]
      by_cases hkey : other = node
      · subst hkey
        simp [hnew, eq_comm]
      · have hne : (other.key == node.key) = false := by simpa [Node.key_inj] using hkey
        simp [hne, h.table, Ne.symm hkey]
    · rcases getElem?_concat_eq_some.1 hother with hold | ⟨rfl, rfl⟩
      · exact h.descends hold
      · exact hcomponents
    · rcases getElem?_concat_eq_some.1 hother with hold | ⟨rfl, rfl⟩
      · exact h.ascends hold
      · exact hfields

/-! ### What numbers stand for -/

theorem types_concat (nodes : List Node) (node : Node) (table : List (String × Id)) :
    (Store.mk (nodes ++ [node]) table).types = (Store.mk nodes table).types ++
      [(node.map fun id => (Store.mk nodes table).types.getD id .null).toTy] := by
  simp only [types, List.foldl_append, List.foldl_cons, List.foldl_nil]

theorem types_length (store : Store) : store.types.length = store.nodes.length := by
  obtain ⟨nodes, table⟩ := store
  induction nodes using List.reverseRecOn with
  | nil => rfl
  | append_singleton nodes node ih => rw [types_concat, List.length_append, List.length_append, ih]; rfl

/-- Types stay where they are when nodes are added. -/
theorem types_extension (h : store.nodes <+: store'.nodes) : store.types <+: store'.types := by
  obtain ⟨nodes, table⟩ := store
  obtain ⟨nodes', table'⟩ := store'
  obtain ⟨added, rfl⟩ := h
  induction added using List.reverseRecOn with
  | nil => simp [types]
  | append_singleton added node ih =>
    have hconcat := types_concat (nodes ++ added) node table'
    rw [← List.append_assoc]
    exact hconcat ▸ ih.trans (List.prefix_append _ _)

theorem getElem?_of_extension {α : Type} {xs ys : List α} {i : Nat} {x : α} (h : xs <+: ys)
    (hx : xs[i]? = some x) : ys[i]? = some x := by
  obtain ⟨hlt, rfl⟩ := List.getElem?_eq_some_iff.1 hx
  exact List.prefix_iff_getElem?.1 h i hlt

theorem get?_of_extension {t : Ty} (h : store.nodes <+: store'.nodes) (hget : store.get? id = some t) :
    store'.get? id = some t :=
  getElem?_of_extension (types_extension h) hget

theorem exists_get?_of_lt (h : id < store.nodes.length) : ∃ t, store.get? id = some t :=
  ⟨_, List.getElem?_eq_getElem (types_length store ▸ h)⟩

theorem exists_node_of_get? {t : Ty} (h : store.get? id = some t) :
    ∃ node, store.nodes[id]? = some node := by
  obtain ⟨hlt, -⟩ := List.getElem?_eq_some_iff.1 h
  exact ⟨_, List.getElem?_eq_getElem (types_length store ▸ hlt)⟩

/-- A number stands for the layer that it was given for, over what the components stand for. -/
theorem WellFormed.get?_eq (h : store.WellFormed) (hnode : store.nodes[id]? = some node) :
    store.get? id = some (node.map fun c => (store.get? c).getD .null).toTy := by
  -- At the time it was made the node was the last, and its components stood before it.
  have hlt : id < store.nodes.length := (List.getElem?_eq_some_iff.1 hnode).1
  let before : Store := ⟨store.nodes.take id, []⟩
  have hconcat : store.nodes.take (id + 1) = store.nodes.take id ++ [node] := by
    rw [List.take_add_one, hnode]
    rfl
  have hlength : before.types.length = id := by
    rw [types_length, List.length_take, Nat.min_eq_left (Nat.le_of_lt hlt)]
  have hbefore : ∀ c ∈ node.components, before.types.getD c .null = (store.get? c).getD .null := by
    intro c hc
    obtain ⟨t, ht⟩ := exists_get?_of_lt
      (by rw [← types_length, hlength]; exact h.descends hnode c hc)
    have ht' : before.types[c]? = some t := ht
    rw [get?_of_extension (List.take_prefix _ _) ht, List.getD_eq_getElem?_getD, ht']
  have hlast : (Store.mk (store.nodes.take (id + 1)) []).get? id =
      some (node.map fun c => before.types.getD c .null).toTy := by
    rw [get?, hconcat, types_concat, List.getElem?_append_right (Nat.le_of_eq hlength), hlength]
    simp [before]
  rw [← Layer.map_congr hbefore]
  exact get?_of_extension (List.take_prefix _ _) hlast

/-- Numbers of one type are one number: the components of the two nodes stand for the same types, so
they are the same numbers, and a node is in the table once. -/
theorem WellFormed.get?_inj (h : store.WellFormed) : ∀ {id id' : Id} {t : Ty},
    store.get? id = some t → store.get? id' = some t → id = id' := by
  intro id
  induction id using Nat.strongRecOn with
  | _ id ih =>
    intro id' t hid hid'
    obtain ⟨node, hnode⟩ := exists_node_of_get? hid
    obtain ⟨node', hnode'⟩ := exists_node_of_get? hid'
    have hmap : node.map (fun c => (store.get? c).getD .null) =
        node'.map (fun c => (store.get? c).getD .null) := by
      rw [h.get?_eq hnode] at hid
      rw [h.get?_eq hnode'] at hid'
      exact Layer.toTy_inj.1 (Option.some.inj (hid.trans hid'.symm))
    have heq : node = node' := by
      refine Layer.eq_of_map_components (fun c hc c' hc' hcc => ?_) hmap
      obtain ⟨t, ht⟩ := exists_get?_of_lt (h.lt_length hnode c hc)
      obtain ⟨t', ht'⟩ := exists_get?_of_lt (h.lt_length hnode' c' hc')
      have htt : t = t' := by simpa [ht, ht'] using hcc
      exact ih c (h.descends hnode c hc) ht (htt ▸ ht')
    subst heq
    exact Option.some.inj ((h.table.2 hnode).symm.trans (h.table.2 hnode'))

end Store

/-! ### Calls -/

/-- A store in use: with it the numbers that calls have given, each with the tree that was asked
for. -/
structure Usage where
  store : Store := {}
  made : List (Id × Ty) := []

/-- Calls the constructor of a layer, which gets the numbers of the components. -/
def Usage.ask (usage : Usage) (layer : Layer (Id × Ty)) : Usage :=
  let result := usage.store.make (layer.map (·.1))
  { store := result.2, made := (result.1, (layer.map (·.2)).toTy) :: usage.made }

/-- One call of a constructor, on numbers that earlier calls have given. -/
inductive Call : Usage → Usage → Prop
  | make {usage : Usage} (layer : Layer (Id × Ty)) (hmade : ∀ m ∈ layer.components, m ∈ usage.made)
    (hnames : (layer.fields.map (·.1)).Nodup) : Call usage (usage.ask layer)

/-- Each number that was given stands for the tree that was asked for, fields in order. -/
structure Usage.Sound (usage : Usage) : Prop where
  store : usage.store.WellFormed
  made {m : Id × Ty} : m ∈ usage.made → m.2.Distinct ∧ usage.store.get? m.1 = some m.2.arrange

theorem Usage.Sound.lt_length {usage : Usage} (h : usage.Sound) {m : Id × Ty} (hm : m ∈ usage.made) :
    m.1 < usage.store.nodes.length := by
  obtain ⟨node, hnode⟩ := Store.exists_node_of_get? (h.made hm).2
  exact (List.getElem?_eq_some_iff.1 hnode).1

theorem pairwise_names_sorted {κ : Type} {layer : Layer κ} (h : (layer.fields.map (·.1)).Nodup) :
    (layer.sorted.fields.map (·.1)).Pairwise (· < ·) := by
  cases layer with
  | object fields =>
    have hnodup : ((sortFields fields).map (·.1)).Nodup :=
      ((List.mergeSort_perm _ _).map _).nodup_iff.2 h
    refine (List.Pairwise.and (List.pairwise_map.2 (pairwise_sortFields fields)) hnodup).imp ?_
    intro a b hab
    exact String.not_le.1 fun hba => hab.2 (String.le_antisymm hab.1 hba)
  | _ => simp [Layer.sorted, Layer.fields]

/-- One call keeps what numbers stand for, and its number stands for what was asked for. -/
theorem Usage.Sound.call {usage usage' : Usage} (h : usage.Sound) (hcall : Call usage usage') :
    usage'.Sound ∧ usage.store.nodes <+: usage'.store.nodes := by
  cases hcall with
  | make layer hmade hnames =>
    have hbound : ∀ c ∈ (layer.map (·.1)).sorted.components, c < usage.store.nodes.length := by
      intro c hc
      rw [Layer.mem_components_sorted, Layer.components_map] at hc
      obtain ⟨m, hm, rfl⟩ := List.mem_map.1 hc
      exact h.lt_length (hmade m hm)
    obtain ⟨hwf, hgrown, hnode⟩ := h.store.intern hbound
      (pairwise_names_sorted (by simpa [Function.comp_def] using hnames))
    have hold : ∀ {m}, m ∈ usage.made →
        (usage.store.make (layer.map (·.1))).2.get? m.1 = some m.2.arrange :=
      fun hm => Store.get?_of_extension hgrown (h.made hm).2
    refine ⟨⟨hwf, fun {m} hm => ?_⟩, hgrown⟩
    rcases List.mem_cons.1 hm with rfl | hm
    · refine ⟨.layer (by simpa [Function.comp_def] using hnames) fun c hc => ?_, ?_⟩
      · rw [Layer.components_map] at hc
        obtain ⟨m, hm, rfl⟩ := List.mem_map.1 hc
        exact (h.made (hmade m hm)).1
      · have hmap : ((layer.map (·.1)).sorted.map fun c =>
            ((usage.store.make (layer.map (·.1))).2.get? c).getD .null) =
            ((layer.map (·.2)).map arrange).sorted := by
          rw [Layer.sorted_map, Layer.map_map, Layer.map_map, Layer.sorted_map]
          refine Layer.map_congr fun m hm => ?_
          simp only [Function.comp_apply]
          rw [hold (hmade m (Layer.mem_components_sorted.1 hm)), Option.getD_some]
        rw [arrange_toTy, ← hmap]
        exact hwf.get?_eq hnode
    · exact ⟨(h.made hm).1, hold hm⟩

/-- Calls keep what numbers stand for. -/
theorem Usage.Sound.calls {usage usage' : Usage} (h : usage.Sound)
    (hcalls : Relation.ReflTransGen Call usage usage') :
    usage'.Sound ∧ usage.store.nodes <+: usage'.store.nodes := by
  induction hcalls with
  | refl => exact ⟨h, List.prefix_refl _⟩
  | tail _ hcall ih =>
    obtain ⟨hsound, hgrown⟩ := ih.1.call hcall
    exact ⟨hsound, ih.2.trans hgrown⟩

theorem Usage.sound_empty : ({} : Usage).Sound := ⟨Store.wellFormed_empty, by simp⟩

end Choreography.Ty
