import Choreography.Integer
import Mathlib.Data.List.Forall2
import Mathlib.Data.Nat.Digits.Defs

/-!
Integer literals. A literal spells a number by its digits, most significant first and letters in
either case, after a sign in radix ten and after the mark of the radix in others, where there is one.
Reading it gives the number, and the decimal text of a number is a literal for it.
-/

namespace Choreography.Integer

/-- The characters are digits that have the number as their value. -/
def Spells (radix : Nat) (cs : List Char) (n : Nat) : Prop :=
  ∃ ds : List Nat, (∀ d ∈ ds, d < radix) ∧
    List.Forall₂ (fun c d => c = Nat.digitChar d ∨ c = (Nat.digitChar d).toUpper) cs ds ∧
    Nat.ofDigits radix ds.reverse = n

/-- The ways to write an integer. Zeros in front are allowed in each of them. -/
inductive Literal : String → Nat → Int → Prop
  | decimal {cs : List Char} {n : Nat} (h : Spells 10 cs n) : Literal (.ofList cs) 10 n
  | negative {cs : List Char} {n : Nat} (h : Spells 10 cs n) : Literal (.ofList ('-' :: cs)) 10 (-n)
  | bare {radix : Nat} {cs : List Char} {n : Nat} (hradix : radix ∈ [2, 8, 16])
    (h : Spells radix cs n) : Literal (.ofList cs) radix n
  | marked {radix : Nat} {mark : Char} {cs : List Char} {n : Nat}
    (hmark : (radix, mark) ∈ [(2, 'b'), (2, 'B'), (8, 'o'), (8, 'O'), (16, 'x'), (16, 'X')])
    (h : Spells radix cs n) : Literal (.ofList ('0' :: mark :: cs)) radix n

/-- What may stand in front of the digits: nothing, the mark of the radix, and a zero in octal. -/
def leads : Nat → List (List Char)
  | 2 => [[], ['0', 'b'], ['0', 'B']]
  | 8 => [[], ['0', 'o'], ['0', 'O'], ['0']]
  | 16 => [[], ['0', 'x'], ['0', 'X']]
  | _ => []

/-! ### Digits -/

/-- A digit has its value in either case, and is neither a sign nor the mark of its radix. -/
theorem digit_facts {radix : Nat} (hradix : radix ∈ [2, 8, 10, 16]) {d : Nat} (hd : d < radix)
    {c : Char} (hc : c = Nat.digitChar d ∨ c = (Nat.digitChar d).toUpper) :
    digitValue c = d ∧ c ≠ '-' ∧ c ≠ '+' ∧ marks radix c = false := by
  have hall : ∀ radix ∈ [2, 8, 10, 16], ∀ d < radix, ∀ upper : Bool,
      let c := if upper then d.digitChar.toUpper else d.digitChar
      digitValue c = d ∧ c ≠ '-' ∧ c ≠ '+' ∧ marks radix c = false := by decide
  rcases hc with rfl | rfl
  · exact hall radix hradix d hd false
  · exact hall radix hradix d hd true

namespace Spells

variable {radix n : Nat} {c : Char} {cs : List Char}

theorem nil : Spells radix [] 0 := ⟨[], by simp, .nil, rfl⟩

/-- A further digit on the right. -/
theorem snoc (h : Spells radix cs n) {d : Nat} (hd : d < radix) :
    Spells radix (cs ++ [d.digitChar]) (radix * n + d) := by
  obtain ⟨ds, hlt, hcs, rfl⟩ := h
  refine ⟨ds ++ [d], by simpa [or_imp, forall_and] using ⟨hlt, hd⟩,
    List.rel_append hcs (.cons (.inl rfl) .nil), ?_⟩
  simp [Nat.ofDigits_cons, Nat.add_comm]

theorem head (hradix : radix ∈ [2, 8, 10, 16]) (h : Spells radix (c :: cs) n) :
    c ≠ '-' ∧ c ≠ '+' ∧ marks radix c = false := by
  obtain ⟨ds, hlt, hcs, _⟩ := h
  cases hcs with
  | cons hc _ => exact (digit_facts hradix (hlt _ List.mem_cons_self) hc).2

theorem zero_cons (h : Spells radix cs n) (hradix : 0 < radix) : Spells radix ('0' :: cs) n := by
  obtain ⟨ds, hlt, hcs, rfl⟩ := h
  exact ⟨0 :: ds, List.forall_mem_cons.2 ⟨hradix, hlt⟩, .cons (.inl rfl) hcs,
    by simp [Nat.ofDigits_append]⟩

theorem tail_of_zero (h : Spells radix ('0' :: cs) n) (hradix : radix ∈ [2, 8, 10, 16]) :
    Spells radix cs n := by
  obtain ⟨ds, hlt, hcs, rfl⟩ := h
  cases hcs with
  | @cons _ d _ ds hc hcs =>
    obtain ⟨hd, hrest⟩ := List.forall_mem_cons.1 hlt
    obtain rfl : d = 0 := (digit_facts hradix hd hc).1.symm
    exact ⟨ds, hrest, hcs, by simp [Nat.ofDigits_append]⟩

theorem ofDigits_eq (hradix : radix ∈ [2, 8, 10, 16]) (h : Spells radix cs n) :
    ofDigits radix cs = n := by
  obtain ⟨ds, hlt, hcs, rfl⟩ := h
  have hvalues : cs.map digitValue = ds := by
    induction hcs with
    | nil => rfl
    | cons hc _ ih =>
      obtain ⟨hd, hlt⟩ := List.forall_mem_cons.1 hlt
      rw [List.map_cons, (digit_facts hradix hd hc).1, ih hlt]
  rw [Nat.ofDigits_eq_foldr, List.foldr_reverse, ← hvalues, List.foldl_map, ofDigits]
  simp [Nat.add_comm, Nat.mul_comm]

theorem ofSigned_eq (hradix : radix ∈ [2, 8, 10, 16]) (h : Spells radix cs n) :
    ofSigned radix cs = n := by
  unfold ofSigned
  split
  · exact absurd rfl (h.head hradix).1
  · exact absurd rfl (h.head hradix).2.1
  · rw [h.ofDigits_eq hradix]

/-- What reading drops in front of the digits makes no difference to the number. -/
theorem stripMark (hradix : radix ∈ [2, 8, 10, 16]) (h : Spells radix cs n) :
    Spells radix (stripMark radix cs) n := by
  unfold Integer.stripMark
  extract_lets text
  have htext : text = cs := by
    unfold text
    split
    · simp [((h.tail_of_zero hradix).head hradix).2.2]
    · rfl
  rw [htext]
  split
  · exact h.tail_of_zero hradix
  · exact h

end Spells

theorem ofLiteral_eq {text : String} {radix : Nat} {n : Int} (h : Literal text radix n) :
    ofLiteral text radix = n := by
  unfold ofLiteral
  cases h with
  | decimal h =>
    rw [String.toList_ofList]
    exact (h.stripMark (by simp)).ofSigned_eq (by simp)
  | negative h =>
    rw [String.toList_ofList]
    change -(ofDigits 10 _ : Int) = _
    rw [h.ofDigits_eq (by simp)]
  | bare hradix h =>
    have hradix : radix ∈ [2, 8, 10, 16] := (by decide : [2, 8, 16] ⊆ [2, 8, 10, 16]) hradix
    rw [String.toList_ofList]
    exact (h.stripMark hradix).ofSigned_eq hradix
  | @marked _ mark cs _ hmark h =>
    have hmarked : radix ∈ [2, 8, 10, 16] ∧ marks radix mark = true := by
      revert hmark
      simp only [List.mem_cons, Prod.mk.injEq, List.not_mem_nil, or_false]
      rintro (⟨rfl, rfl⟩ | ⟨rfl, rfl⟩ | ⟨rfl, rfl⟩ | ⟨rfl, rfl⟩ | ⟨rfl, rfl⟩ | ⟨rfl, rfl⟩) <;> decide
    obtain ⟨hradix, hmark⟩ := hmarked
    rw [String.toList_ofList]
    refine Spells.ofSigned_eq hradix ?_
    unfold stripMark
    simp only [hmark, ↓reduceIte]
    split
    · exact h.tail_of_zero hradix
    · exact h

/-- The decimal text of a number spells it. -/
theorem spells_toDigits (n : Nat) : Spells 10 (Nat.toDigits 10 n) n := by
  induction n using Nat.strongRecOn with
  | ind n ih =>
    rw [Nat.toDigits_eq_if (by decide)]
    split
    · rename_i hsmall
      simpa using Spells.nil.snoc hsmall
    · have hrest := (ih (n / 10) (by omega)).snoc (Nat.mod_lt n (by decide))
      rwa [Nat.div_add_mod] at hrest

theorem literal_decimal (n : Int) : Literal (Integer.decimal n) 10 n := by
  cases n with
  | ofNat n => exact .decimal (spells_toDigits n)
  | negSucc n =>
    have h := Literal.negative (spells_toDigits (n + 1))
    simpa [Integer.decimal, Nat.repr_eq_ofList_toDigits, Int.negSucc_eq, String.ofList_cons] using h

theorem literal_lead {radix n : Nat} {lead cs : List Char} (hlead : lead ∈ leads radix)
    (h : Spells radix cs n) : Literal (.ofList (lead ++ cs)) radix n := by
  unfold leads at hlead
  split at hlead <;> simp only [List.mem_cons, List.not_mem_nil, or_false] at hlead
  · rcases hlead with rfl | rfl | rfl
    · exact .bare (by simp) h
    all_goals exact .marked (by simp) h
  · rcases hlead with rfl | rfl | rfl | rfl
    · exact .bare (by simp) h
    · exact .marked (by simp) h
    · exact .marked (by simp) h
    · exact .bare (by simp) (h.zero_cons (by decide))
  · rcases hlead with rfl | rfl | rfl
    · exact .bare (by simp) h
    all_goals exact .marked (by simp) h

/-- Reading gives back the number that was written in decimal; and in any other radix that literals
have, the number that the digits spell, whatever stands in front of them. -/
theorem literals_have_value :
    (∀ n : Int, ofLiteral (decimal n) 10 = n) ∧
    ∀ (radix : Nat) (lead digits : List Char) (n : Nat), lead ∈ leads radix →
      Spells radix digits n → ofLiteral (.ofList (lead ++ digits)) radix = n :=
  ⟨fun n => ofLiteral_eq (literal_decimal n), fun _ _ _ _ hlead h => ofLiteral_eq (literal_lead hlead h)⟩

theorem hexadecimal_has_value : ['0', 'X'] ∈ leads 16 ∧ Spells 16 ['0', '0', 'f', 'F'] 255 ∧
    ofLiteral (.ofList ['0', 'X', '0', '0', 'f', 'F']) 16 = 255 := by
  have hlead : ['0', 'X'] ∈ leads 16 := by simp [leads]
  have hspells : Spells 16 ['0', '0', 'f', 'F'] 255 :=
    ⟨[0, 0, 15, 15], by decide, by simp; decide, by decide⟩
  exact ⟨hlead, hspells, literals_have_value.2 16 _ _ 255 hlead hspells⟩

end Choreography.Integer
