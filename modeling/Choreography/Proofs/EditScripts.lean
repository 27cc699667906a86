import Choreography.Text.EditDistance
import Mathlib.Order.Bounds.Basic
import Mathlib.Order.MinMax

/-!
What the edit distance measures. Every row of the distance table holds, for each beginning of the
target, the least cost of a walk over both texts; and the least cost of a walk is the length of
the shortest series of single edits, made anywhere and in any order.
-/

namespace Choreography.Text

variable {α : Type}

/-- One edit: an element is inserted, deleted or replaced, in front or further on. -/
inductive Edit : List α → List α → Prop
  | insert {s : List α} (y : α) : Edit s (y :: s)
  | delete {s : List α} (x : α) : Edit (x :: s) s
  | replace {s : List α} (x y : α) : Edit (x :: s) (y :: s)
  | later {s t : List α} (x : α) : Edit s t → Edit (x :: s) (x :: t)

/-- A number of edits, one after the other. -/
inductive Edits : Nat → List α → List α → Prop
  | none (s : List α) : Edits 0 s s
  | more {n : Nat} {s m t : List α} : Edits n s m → Edit m t → Edits (n + 1) s t

/-- A walk over two texts from the left, with the number of places where they differ. -/
inductive Walk : Nat → List α → List α → Prop
  | done : Walk 0 [] []
  | insert {n : Nat} {s t : List α} (y : α) : Walk n s t → Walk (n + 1) s (y :: t)
  | delete {n : Nat} {s t : List α} (x : α) : Walk n s t → Walk (n + 1) (x :: s) t
  | keep {n : Nat} {s t : List α} (x : α) : Walk n s t → Walk n (x :: s) (x :: t)
  | replace {n : Nat} {s t : List α} (x y : α) : Walk n s t → Walk (n + 1) (x :: s) (y :: t)

variable {n d left : Nat} {s t t' done ys : List α} {x y : α} {row rest : List Nat}

/-! ### Walks and edits -/

theorem Edit.append_right (rest : List α) (h : Edit s t) : Edit (s ++ rest) (t ++ rest) := by
  induction h with
  | insert y => exact .insert y
  | delete x => exact .delete x
  | replace x y => exact .replace x y
  | later x _ ih => exact ih.later x

theorem Edit.append_left (h : Edit s t) : ∀ front : List α, Edit (front ++ s) (front ++ t)
  | [] => h
  | x :: front => (h.append_left front).later x

theorem Edit.reverse (h : Edit s t) : Edit s.reverse t.reverse := by
  induction h with
  | @insert s y => simpa using (Edit.insert (s := []) y).append_left s.reverse
  | @delete s x => simpa using (Edit.delete (s := []) x).append_left s.reverse
  | @replace s x y => simpa using (Edit.replace (s := []) x y).append_left s.reverse
  | later x _ ih => simpa using ih.append_right [x]

theorem Edits.reverse (h : Edits n s t) : Edits n s.reverse t.reverse := by
  induction h with
  | none => exact .none _
  | more _ hlast ih => exact .more ih hlast.reverse

theorem Edits.cons (x : α) (h : Edits n s t) : Edits n (x :: s) (x :: t) := by
  induction h with
  | none => exact .none _
  | more _ hlast ih => exact .more ih (hlast.later x)

theorem Walk.edits (h : Walk n s t) : Edits n s t := by
  induction h with
  | done => exact .none []
  | insert y _ ih => exact .more ih (.insert y)
  | delete x _ ih => exact .more (ih.cons x) (.delete x)
  | keep x _ ih => exact ih.cons x
  | replace x y _ ih => exact .more (ih.cons x) (.replace x y)

theorem Walk.same : ∀ s : List α, Walk 0 s s
  | [] => .done
  | x :: s => .keep x (same s)

/-- An edit of the target makes a walk longer by at most one: where the walk meets the place of the
edit, it can be changed there. -/
theorem Walk.edit (h : Walk n s t) (hedit : Edit t t') : ∃ m ≤ n + 1, Walk m s t' := by
  induction h generalizing t' with
  | done =>
    cases hedit with
    | insert z => exact ⟨1, le_rfl, .insert z .done⟩
  | @insert n s t y h ih =>
    cases hedit with
    | insert z => exact ⟨n + 2, le_rfl, .insert z (.insert y h)⟩
    | delete => exact ⟨n, by omega, h⟩
    | replace _ z => exact ⟨n + 1, by omega, .insert z h⟩
    | later _ hedit =>
      obtain ⟨m, hm, h⟩ := ih hedit
      exact ⟨m + 1, by omega, .insert y h⟩
  | delete x _ ih =>
    obtain ⟨m, hm, h⟩ := ih hedit
    exact ⟨m + 1, by omega, .delete x h⟩
  | @keep n s t x h ih =>
    cases hedit with
    | insert z => exact ⟨n + 1, le_rfl, .insert z (.keep x h)⟩
    | delete => exact ⟨n + 1, le_rfl, .delete x h⟩
    | replace _ z => exact ⟨n + 1, le_rfl, .replace x z h⟩
    | later _ hedit =>
      obtain ⟨m, hm, h⟩ := ih hedit
      exact ⟨m, hm, .keep x h⟩
  | @replace n s t x y h ih =>
    cases hedit with
    | insert z => exact ⟨n + 2, le_rfl, .insert z (.replace x y h)⟩
    | delete => exact ⟨n + 1, by omega, .delete x h⟩
    | replace _ z => exact ⟨n + 1, by omega, .replace x z h⟩
    | later _ hedit =>
      obtain ⟨m, hm, h⟩ := ih hedit
      exact ⟨m + 1, by omega, .replace x y h⟩

theorem Edits.walk (h : Edits n s t) : ∃ m ≤ n, Walk m s t := by
  induction h with
  | none s => exact ⟨0, le_rfl, .same s⟩
  | more _ hlast ih =>
    obtain ⟨m, hm, hwalk⟩ := ih
    obtain ⟨m', hm', hwalk'⟩ := hwalk.edit hlast
    exact ⟨m', by omega, hwalk'⟩

/-! ### The table of distances -/

/-- The least cost of a walk. -/
abbrev Shortest (s t : List α) (d : Nat) : Prop := IsLeast {n | Walk n s t} d

theorem Shortest.nil_left : ∀ t : List α, Shortest [] t t.length
  | [] => ⟨.done, fun _ _ => Nat.zero_le _⟩
  | y :: t => by
    obtain ⟨h, hleast⟩ := nil_left t
    refine ⟨.insert y h, fun m hm => ?_⟩
    cases hm with
    | insert _ hm => exact Nat.succ_le_succ (hleast hm)

theorem Shortest.nil_right (h : Shortest s [] d) (x : α) : Shortest (x :: s) [] (d + 1) := by
  refine ⟨.delete x h.1, fun m hm => ?_⟩
  cases hm with
  | delete _ hm => exact Nat.succ_le_succ (h.2 hm)

variable [DecidableEq α]

/-- A shortest walk over two texts continues a shortest walk over shorter ones. -/
theorem Shortest.cons_cons {left above diagonal : Nat} (hleft : Shortest (x :: s) t left)
    (habove : Shortest s (y :: t) above) (hdiagonal : Shortest s t diagonal) :
    Shortest (x :: s) (y :: t)
      (min (min (left + 1) (above + 1)) (diagonal + if x = y then 0 else 1)) := by
  constructor
  · rcases min_choice (min (left + 1) (above + 1)) (diagonal + if x = y then 0 else 1) with h | h
    · rw [h]
      rcases min_choice (left + 1) (above + 1) with h | h <;> rw [h]
      · exact .insert y hleft.1
      · exact .delete x habove.1
    · rw [h]
      split
      · next heq => exact heq ▸ .keep x hdiagonal.1
      · exact .replace x y hdiagonal.1
  · intro m hm
    cases hm with
    | insert _ hm => have := hleft.2 hm; omega
    | delete _ hm => have := habove.2 hm; omega
    | keep _ hm => have := hdiagonal.2 hm; simp; omega
    | replace _ _ hm => have := hdiagonal.2 hm; split <;> omega

/-- A row of the table: the distances from `s` to the text `done` and to its continuations by the
elements to come. Texts are read backwards here, as the table grows at their ends. -/
inductive IsRow (s : List α) : List α → List α → List Nat → Prop
  | last {done : List α} {d : Nat} : Shortest s done d → IsRow s done [] [d]
  | cons {done ys : List α} {y : α} {d : Nat} {row : List Nat} :
    Shortest s done d → IsRow s (y :: done) ys row → IsRow s done (y :: ys) (d :: row)

omit [DecidableEq α] in
theorem IsRow.first (h : IsRow s done ys row) : ∃ d rest, row = d :: rest ∧ Shortest s done d := by
  cases h with
  | last h => exact ⟨_, _, rfl, h⟩
  | cons h _ => exact ⟨_, _, rfl, h⟩

omit [DecidableEq α] in
theorem IsRow.range : ∀ ys done : List α,
    IsRow [] done ys (List.range' done.length (ys.length + 1))
  | [], done => .last (.nil_left done)
  | y :: ys, done => by
    rw [List.length_cons, List.range'_succ]
    exact .cons (.nil_left done) (range ys (y :: done))

theorem IsRow.extendRow (h : IsRow s done ys (d :: rest)) (hleft : Shortest (x :: s) done left) :
    IsRow (x :: s) done ys (left :: extendRow x ys d rest left) := by
  induction ys generalizing done d rest left with
  | nil => exact .last hleft
  | cons y ys ih =>
    cases h with
    | cons hd hrest =>
      obtain ⟨above, rest, rfl, habove⟩ := hrest.first
      exact .cons hleft (ih hrest (hleft.cons_cons habove hd))

theorem IsRow.nextRow (h : IsRow s [] t row) (x : α) : IsRow (x :: s) [] t (nextRow t row x) := by
  obtain ⟨d, rest, rfl, hd⟩ := h.first
  exact h.extendRow (hd.nil_right x)

theorem IsRow.foldl (h : IsRow s [] t row) (source : List α) :
    IsRow (source.reverse ++ s) [] t (source.foldl (Text.nextRow t) row) := by
  induction source generalizing s row with
  | nil => exact h
  | cons x source ih => simpa using ih (h.nextRow x)

omit [DecidableEq α] in
theorem IsRow.getLast (h : IsRow s done ys row) :
    ∃ d, row.getLast? = some d ∧ Shortest s (ys.reverse ++ done) d := by
  induction h with
  | last h => exact ⟨_, rfl, h⟩
  | cons _ hrest ih =>
    obtain ⟨d, hd, h⟩ := ih
    obtain ⟨_, _, rfl, _⟩ := hrest.first
    exact ⟨d, by simpa using hd, by simpa using h⟩

/-- The distance is the least number of edits that make the target of the source. -/
theorem isLeast_editDistance (source target : List α) :
    IsLeast {n | Edits n source target} (editDistance source target) := by
  have hrow := (IsRow.range target []).foldl source
  rw [List.length_nil, ← List.range_eq_range'] at hrow
  obtain ⟨d, hlast, hwalk, hleast⟩ := hrow.getLast
  have hd : editDistance source target = d := by simp [editDistance, distanceRow, hlast]
  rw [hd]
  simp only [List.append_nil] at hwalk hleast
  refine ⟨by simpa using (Walk.edits hwalk).reverse, fun n hn => ?_⟩
  obtain ⟨m, hm, hwalk⟩ := hn.reverse.walk
  exact (hleast hwalk).trans hm

end Choreography.Text
