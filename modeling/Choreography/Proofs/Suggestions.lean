import Choreography.Fault.Suggestion
import Choreography.Proofs.ByteOrder
import Choreography.Proofs.EditScripts

/-!
Suggestions are the closest names. Sorting the candidates by their distance and then by their bytes
is a total order, so what comes first does not depend on how the candidates were listed.
-/

namespace Choreography.Suggestion

/-- One candidate is closer to what was written than another: it takes fewer edits to reach, or as
many and its bytes come first. -/
def Closer (wanted a b : String) : Prop :=
  distance wanted a < distance wanted b ∨
    distance wanted a = distance wanted b ∧ Text.Earlier (Text.bytes a) (Text.bytes b)

variable {wanted : String} {candidates : List String}

theorem precedes_iff {a b : Nat × String} :
    precedes a b = true ↔ a.1 < b.1 ∨ a.1 = b.1 ∧ a.2 ≤ b.2 := by
  simp [precedes]

theorem precedes_trans (a b c : Nat × String) (hab : precedes a b = true)
    (hbc : precedes b c = true) : precedes a c = true := by
  rw [precedes_iff] at *
  rcases hab with hab | ⟨hab, hle⟩ <;> rcases hbc with hbc | ⟨hbc, hle'⟩
  · exact .inl (by omega)
  · exact .inl (by omega)
  · exact .inl (by omega)
  · exact .inr ⟨hab.trans hbc, String.le_trans hle hle'⟩

theorem precedes_total (a b : Nat × String) : (precedes a b || precedes b a) = true := by
  rw [Bool.or_eq_true, precedes_iff, precedes_iff]
  rcases Nat.lt_trichotomy a.1 b.1 with h | h | h
  · exact .inl (.inl h)
  · exact (String.le_total a.2 b.2).imp (fun hle => .inr ⟨h, hle⟩) fun hle => .inr ⟨h.symm, hle⟩
  · exact .inr (.inl h)

theorem precedes_antisymm {a b : Nat × String} (hab : precedes a b = true)
    (hba : precedes b a = true) : a = b := by
  rw [precedes_iff] at *
  rcases hab with hab | ⟨hab, hle⟩ <;> rcases hba with hba | ⟨hba, hle'⟩
  all_goals try omega
  exact Prod.ext hab (String.le_antisymm hle hle')

theorem not_closer_of_precedes {a b : String}
    (h : precedes (distance wanted a, a) (distance wanted b, b) = true) : ¬ Closer wanted b a := by
  rintro (hlt | ⟨heq, hearlier⟩) <;> rcases precedes_iff.1 h with hlt' | ⟨_, hle⟩
  · omega
  · omega
  · exact absurd heq (Nat.ne_of_gt hlt')
  · exact String.not_le.2 (Text.earlier_bytes_iff.1 hearlier) hle

/-- The candidates in order. -/
def ranked (wanted : String) (candidates : List String) : List String :=
  ((candidates.map fun c => (distance wanted c, c)).mergeSort precedes).map (·.2)

theorem ranked_perm (wanted : String) (candidates : List String) :
    (ranked wanted candidates).Perm candidates := by
  have hperm := (List.mergeSort_perm (candidates.map fun c => (distance wanted c, c)) precedes).map
    (·.2)
  simpa [ranked, Function.comp_def] using hperm

theorem ranked_pairwise (wanted : String) (candidates : List String) :
    (ranked wanted candidates).Pairwise fun a b => ¬ Closer wanted b a := by
  have hsorted := List.pairwise_mergeSort precedes_trans precedes_total
  refine List.pairwise_map.2 ((hsorted _).imp_of_mem ?_)
  intro a b ha hb h
  obtain ⟨_, _, rfl⟩ := List.mem_map.1 (List.mem_mergeSort.1 ha)
  obtain ⟨_, _, rfl⟩ := List.mem_map.1 (List.mem_mergeSort.1 hb)
  exact not_closer_of_precedes h

theorem ranked_eq_of_perm {candidates' : List String} (h : candidates'.Perm candidates) :
    ranked wanted candidates' = ranked wanted candidates := by
  have hsorted := List.pairwise_mergeSort precedes_trans precedes_total
  refine congrArg (List.map _) (List.Perm.eq_of_pairwise (fun _ _ _ _ => precedes_antisymm)
    (hsorted _) (hsorted _) ?_)
  exact (List.mergeSort_perm _ _).trans ((h.map _).trans (List.mergeSort_perm _ _).symm)

/-- The suggestions are the first of the candidates, each as often as it is listed, in the order of
the least number of edits that make it of what was written, and then of its bytes. No candidate
that is left out is closer than one that is suggested, and it does not matter in which order the
candidates were listed. -/
theorem closest_are_first (wanted : String) (candidates : List String) (limit : Nat) :
    (∀ c, IsLeast {n | Text.Edits n (Text.bytes wanted) (Text.bytes c)} (distance wanted c)) ∧
    (closest wanted candidates limit).length = min limit candidates.length ∧
    (∃ omitted, (closest wanted candidates limit ++ omitted).Perm candidates ∧
      (closest wanted candidates limit ++ omitted).Pairwise (fun a b => ¬ Closer wanted b a) ∧
      ∀ c ∈ closest wanted candidates limit, ∀ c' ∈ omitted, ¬ Closer wanted c' c) ∧
    ∀ candidates', candidates'.Perm candidates →
      closest wanted candidates' limit = closest wanted candidates limit := by
  have hclosest : ∀ cs, closest wanted cs limit = (ranked wanted cs).take limit := fun _ => rfl
  have hpairwise := ranked_pairwise wanted candidates
  rw [← List.take_append_drop limit (ranked wanted candidates)] at hpairwise
  refine ⟨fun c => Text.isLeast_editDistance _ _, ?_, ⟨(ranked wanted candidates).drop limit, ?_⟩,
    ?_⟩
  · rw [hclosest, List.length_take, (ranked_perm wanted candidates).length_eq]
  · rw [hclosest]
    exact ⟨by simpa using ranked_perm wanted candidates, hpairwise,
      (List.pairwise_append.1 hpairwise).2.2⟩
  · intro candidates' hperm
    rw [hclosest, hclosest, ranked_eq_of_perm hperm]

end Choreography.Suggestion
