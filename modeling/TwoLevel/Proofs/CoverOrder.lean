import Mathlib.Order.Lattice.Nat
import TwoLevel.Proofs.Essentials

/-! The order of the covers. Every cover begins with the essential implicants, in the order of the
first row that each covers alone. What completes them is ascending, and the completions follow
each other in lexicographic order. -/

set_option autoImplicit false

namespace TwoLevel.Cover

/-- The minterms that only the implicant at the given position covers. -/
def soleRows (implicants : List Implicant) (minterms : RowSet) (i : Nat) : Set Row :=
  {row | row ∈ minterms ∧ ∀ j, (∃ m, implicants[j]? = some m ∧ m.covers row = true) ↔ j = i}

/-- The order of covers that have the same beginning and different completions. -/
structure InOrder (implicants : List Implicant) (minterms : RowSet) (beginning : List Nat)
    (completions : List (List Nat)) : Prop where
  /-- The beginning consists of the essential implicants. -/
  essential : ∀ i, i ∈ beginning ↔ (soleRows implicants minterms i).Nonempty
  /-- They are ordered by the smallest rows that only they cover. -/
  byFirstRow : beginning.Pairwise fun i j => ∃ a b, IsLeast (soleRows implicants minterms i) a ∧
    IsLeast (soleRows implicants minterms j) b ∧ a < b
  ascending : ∀ completion ∈ completions, completion.Pairwise (· < ·)
  optional : ∀ completion ∈ completions, ∀ i ∈ completion, i ∉ beginning
  lexicographic : completions.Pairwise (List.Lex (· < ·))

section Essentials

variable {covering : Row → List Nat} {minterms : List Row}

/-- Of two essential implicants, the first covers some row alone before the second covers any. -/
theorem pairwise_essentials (ascending : minterms.Pairwise (· < ·)) :
    (essentials covering minterms).Pairwise fun i j =>
      ∃ row ∈ minterms, covering row = [i] ∧ ∀ other ∈ minterms, covering other = [j] → row < other := by
  -- The rows are gone through from the front, so the induction takes them away at the end.
  induction minterms using List.reverseRecOn with
  | nil => exact .nil
  | append_singleton earlier last ih =>
    obtain ⟨before, _, below⟩ := List.pairwise_append.mp ascending
    have lt_last : ∀ row ∈ earlier, row < last := fun row member => below row member last (List.mem_singleton_self last)
    have kept := (ih before).imp (S := fun i j => ∃ row ∈ earlier ++ [last], covering row = [i] ∧
        ∀ other ∈ earlier ++ [last], covering other = [j] → row < other) fun {i j} found => by
      obtain ⟨row, member, sole, first⟩ := found
      refine ⟨row, List.mem_append_left _ member, sole, fun other inList soleOther => ?_⟩
      rcases List.mem_append.mp inList with inEarlier | isLast
      · exact first other inEarlier soleOther
      · exact List.mem_singleton.mp isLast ▸ lt_last row member
    rw [essentials_concat]
    split
    · rename_i j soleLast
      split
      · exact kept
      · rename_i new
        refine List.pairwise_append.mpr ⟨kept, List.pairwise_singleton _ _, fun i known k isNew => ?_⟩
        obtain rfl := List.mem_singleton.mp isNew
        obtain ⟨row, member, sole⟩ := mem_essentials.mp known
        refine ⟨row, List.mem_append_left _ member, sole, fun other inList soleOther => ?_⟩
        rcases List.mem_append.mp inList with inEarlier | isLast
        · exact absurd (mem_essentials.mpr ⟨other, inEarlier, soleOther⟩) new
        · exact List.mem_singleton.mp isLast ▸ lt_last row member
    · exact kept

end Essentials

section Completions

theorem lexLe_iff {l m : List Nat} : lexLe l m = true ↔ l = m ∨ List.Lex (· < ·) l m := by
  induction l generalizing m with
  | nil => cases m <;> simp [lexLe]
  | cons a l ih =>
    cases m with
    | nil => simp [lexLe]
    | cons b m =>
      rw [lexLe, Bool.or_eq_true, Bool.and_eq_true, decide_eq_true_eq, beq_iff_eq, ih, List.cons_lex_cons_iff,
        List.cons.injEq, and_or_left, or_left_comm]

theorem lexLe_trans {l m n : List Nat} (first : lexLe l m = true) (second : lexLe m n = true) : lexLe l n = true := by
  rw [lexLe_iff] at first second ⊢
  rcases first with rfl | less
  · exact second
  · rcases second with rfl | less'
    · exact .inr less
    · exact .inr (List.lex_trans Nat.lt_trans less less')

theorem lexLe_total (l m : List Nat) : lexLe l m = true ∨ lexLe m l = true := by
  induction l generalizing m with
  | nil => exact .inl rfl
  | cons a l ih =>
    cases m with
    | nil => exact .inr rfl
    | cons b m =>
      simp only [lexLe, Bool.or_eq_true, Bool.and_eq_true, decide_eq_true_eq, beq_iff_eq]
      rcases Nat.lt_trichotomy a b with less | rfl | greater
      · exact .inl (.inl less)
      · exact (ih m).imp (fun le => .inr ⟨rfl, le⟩) fun le => .inr ⟨rfl, le⟩
      · exact .inr (.inl greater)

/-- The smallest products are sorted, and as they are all different, strictly so. -/
theorem pairwise_smallest {products : List IndexSet} (nodup : products.Nodup) :
    (smallest products).Pairwise (List.Lex (· < ·)) := by
  have sorted : (smallest products).Pairwise fun l m => lexLe l m = true := by
    unfold smallest
    dsimp only
    split
    · exact .nil
    · apply List.pairwise_mergeSort
      · intro l m n
        exact lexLe_trans
      · intro l m
        exact (Bool.or_eq_true _ _).mpr (lexLe_total l m)
  exact sorted.imp₂ (fun l m le different => (lexLe_iff.mp le).resolve_left different) (nodup_smallest nodup)

end Completions

section Selection

variable {implicants : List Implicant} {minterms : List Row}

/-- A selection yields all smallest covers, unless there is a limit and it is exceeded. -/
theorem outcome_select_cases (settings : Settings) (covered : ∀ row ∈ minterms, coverers implicants row ≠ []) :
    (select implicants minterms settings).outcome = .ok (minimumCovers implicants minterms) ∨
      ∃ limit, settings.coverLimit = some limit ∧
        (select implicants minterms settings).outcome = .error (.coverLimit limit) := by
  rw [outcome_select settings covered]
  rcases distribute_cases settings.coverLimit [∅] (openClauses implicants minterms) with within | exceeded
  · left
    rw [within]
    rfl
  · right
    obtain ⟨limit, given, failed⟩ := exceeded
    refine ⟨limit, given, ?_⟩
    rw [failed]
    rfl

theorem eq_minimumCovers_of_select {settings : Settings} {covers : List (List Nat)}
    (covered : ∀ row ∈ minterms, coverers implicants row ≠ [])
    (selected : (select implicants minterms settings).outcome = .ok covers) :
    covers = minimumCovers implicants minterms := by
  rcases outcome_select_cases settings covered with done | ⟨_, _, exceeded⟩
  · exact Except.ok.inj (selected.symm.trans done)
  · cases selected.symm.trans exceeded

end Selection

theorem mem_soleRows {implicants : List Implicant} {minterms : RowSet} {i : Nat} {row : Row} :
    row ∈ soleRows implicants minterms i ↔ row ∈ minterms ∧ coverers implicants row = [i] := by
  rw [coverers_eq_singleton_iff_forall]
  simp only [mem_coverers]
  rfl

theorem inOrder_minimumCovers (implicants : List Implicant) (minterms : RowSet) :
    InOrder implicants minterms (essentials (coverers implicants) minterms.toList)
      (smallest (productsOf (openClauses implicants minterms.toList))) where
  essential := by
    intro i
    rw [mem_essentials]
    exact exists_congr fun row => mem_soleRows.symm
  byFirstRow := by
    refine (pairwise_essentials minterms.ascending).imp_of_mem fun {i j} _ inEssentials found => ?_
    obtain ⟨row, minterm, sole, first⟩ := found
    obtain ⟨other, otherMinterm, soleOther⟩ := mem_essentials.mp inEssentials
    have leastI := isLeast_csInf ⟨row, mem_soleRows.mpr ⟨minterm, sole⟩⟩
    have leastJ := isLeast_csInf ⟨other, mem_soleRows.mpr ⟨otherMinterm, soleOther⟩⟩
    obtain ⟨inMinterms, soleJ⟩ := mem_soleRows.mp leastJ.1
    exact ⟨_, _, leastI, leastJ,
      lt_of_le_of_lt (leastI.2 (mem_soleRows.mpr ⟨minterm, sole⟩)) (first _ inMinterms soleJ)⟩
  ascending := by
    intro completion member
    obtain ⟨s, _, rfl, _⟩ := mem_smallest.mp member
    exact s.pairwise_toList
  optional := by
    intro completion member i inCompletion essential
    exact Finset.disjoint_left.mp (disjoint_of_mem_smallest member) (List.mem_toFinset.mpr essential)
      (List.mem_toFinset.mpr inCompletion)
  lexicographic := pairwise_smallest (nodup_productsOf _)

/-- A selection that succeeds yields a cover at least, and its covers are in order: they all begin
with the essential implicants, and their completions are ascending and lexicographically ordered.
Each completion covers what this beginning leaves open. -/
theorem select_in_order (implicants : List Implicant) (minterms : RowSet) (settings : Settings)
    (covers : List (List Nat)) (covered : ∀ row ∈ minterms, ∃ m ∈ implicants, m.covers row = true)
    (selected : (select implicants minterms.toList settings).outcome = .ok covers) :
    covers ≠ [] ∧ ∃ beginning completions, covers = completions.map (beginning ++ ·) ∧
      InOrder implicants minterms beginning completions ∧ ∀ completion ∈ completions, ∀ row ∈ minterms,
        ¬Covers implicants [row] beginning.toFinset → Covers implicants [row] completion.toFinset := by
  have table : ∀ row ∈ minterms.toList, coverers implicants row ≠ [] := fun row minterm =>
    coverers_ne_nil (covered row minterm)
  obtain rfl := eq_minimumCovers_of_select table selected
  exact ⟨minimumCovers_ne_nil table, _, _, rfl, inOrder_minimumCovers implicants minterms,
    fun _ member _ => covers_of_mem_smallest member⟩

/-- Every smallest cover of the seven minterms begins with the only essential implicant, and goes on with
implicants that cover the other three of them. -/
theorem select_in_order_four_variables :
    ∃ covers, (select sevenPrimes (SortedSet.ofList [4, 5, 6, 7, 8, 9, 11]).toList {}).outcome = .ok covers ∧
      covers ≠ [] ∧ ∀ cover ∈ covers, ∃ completion, cover = 4 :: completion ∧
        Covers sevenPrimes [8, 9, 11] completion.toFinset := by
  have covered : ∀ row ∈ SortedSet.ofList [4, 5, 6, 7, 8, 9, 11], ∃ m ∈ sevenPrimes, m.covers row = true := by decide
  have selected : (select sevenPrimes (SortedSet.ofList [4, 5, 6, 7, 8, 9, 11]).toList {}).outcome =
      .ok (minimumCovers sevenPrimes (SortedSet.ofList [4, 5, 6, 7, 8, 9, 11]).toList) :=
    (outcome_select_cases {} fun row minterm => coverers_ne_nil (covered row minterm)).resolve_right nofun
  obtain ⟨nonempty, beginning, completions, parts, order, completed⟩ :=
    select_in_order sevenPrimes (.ofList [4, 5, 6, 7, 8, 9, 11]) {} _ covered selected
  have only : ∀ row ∈ SortedSet.ofList [4, 5, 6, 7, 8, 9, 11], ∀ i ∈ coverers sevenPrimes row,
      coverers sevenPrimes row = [i] → i = 4 := by decide
  have essential : ∀ i, i ∈ beginning ↔ i = 4 := by
    intro i
    rw [order.essential i]
    constructor
    · rintro ⟨row, member⟩
      obtain ⟨minterm, sole⟩ := mem_soleRows.mp member
      exact only row minterm i (sole ▸ List.mem_singleton_self i) sole
    · rintro rfl
      exact ⟨5, mem_soleRows.mpr (by decide)⟩
  have distinct : beginning.Nodup := order.byFirstRow.imp fun {i j} found same => by
    obtain ⟨a, b, first, second, less⟩ := found
    exact less.ne (first.unique (same ▸ second))
  obtain rfl : beginning = [4] :=
    List.perm_singleton.mp ((List.perm_ext_iff_of_nodup distinct (List.nodup_singleton 4)).mpr fun i =>
      (essential i).trans List.mem_singleton.symm)
  have rowsOpen : ∀ row ∈ [8, 9, 11], ¬Covers sevenPrimes [row] [4].toFinset := by
    simp only [covers_iff]
    decide
  refine ⟨_, selected, nonempty, fun cover member => ?_⟩
  rw [parts] at member
  obtain ⟨completion, known, rfl⟩ := List.mem_map.mp member
  refine ⟨completion, rfl, fun row inRows => ?_⟩
  have minterm : row ∈ SortedSet.ofList [4, 5, 6, 7, 8, 9, 11] := by
    revert row
    decide
  exact completed completion known row minterm (rowsOpen row inRows) row (List.mem_singleton_self row)

end TwoLevel.Cover
