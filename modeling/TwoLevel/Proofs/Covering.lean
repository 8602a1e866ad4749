import TwoLevel.Proofs.Products

/-! The covers that are selected: all sets of implicants of the smallest size that cover
every minterm. An essential implicant lies in every cover, and what is left to cover is met
by the completions alone. -/

set_option autoImplicit false

namespace TwoLevel

namespace Cover

/-- Every row is covered by an implicant at one of the positions. -/
def Covers (implicants : List Implicant) (minterms : List Row) (positions : Finset Nat) : Prop :=
  ∀ row ∈ minterms, ∃ i ∈ positions, ∃ m, implicants[i]? = some m ∧ m.covers row = true

/-- The clauses of the rows that the essential implicants leave uncovered. -/
def openClauses (implicants : List Implicant) (minterms : List Row) : List IndexSet :=
  let chosen := essentials (coverers implicants) minterms
  (uncovered (coverers implicants) (.ofList chosen) minterms).map fun row => .ofList (coverers implicants row)

/-- The essential implicants with each of the smallest completions. -/
def minimumCovers (implicants : List Implicant) (minterms : List Row) : List (List Nat) :=
  (smallest (productsOf (openClauses implicants minterms))).map (essentials (coverers implicants) minterms ++ ·)

theorem mem_coverers {implicants : List Implicant} {row : Row} {i : Nat} :
    i ∈ coverers implicants row ↔ ∃ m, implicants[i]? = some m ∧ m.covers row = true := by
  simp [coverers, List.mem_zipIdx_iff_getElem?]

theorem nodup_coverers (implicants : List Implicant) (row : Row) : (coverers implicants row).Nodup := by
  unfold coverers
  refine List.Nodup.sublist (List.filter_sublist.map _) ?_
  rw [List.zipIdx_map_snd]
  exact List.nodup_range'

/-- A list without repetitions that has a single member is that member alone. -/
theorem coverers_eq_singleton_iff_forall {implicants : List Implicant} {row : Row} {i : Nat} :
    coverers implicants row = [i] ↔ ∀ j, j ∈ coverers implicants row ↔ j = i := by
  constructor
  · intro sole j
    rw [sole, List.mem_singleton]
  · intro only
    apply List.perm_singleton.mp
    apply (List.perm_ext_iff_of_nodup (nodup_coverers implicants row) (List.nodup_singleton i)).mpr
    intro j
    rw [only, List.mem_singleton]

/-- The coverers of a row, as the selection finds them in its table. -/
def lookup (implicants : List Implicant) (row : Row) : List Nat := (coverage implicants).getD row []

theorem lookup_eq_coverers (implicants : List Implicant) : lookup implicants = coverers implicants :=
  funext (getD_coverage implicants)

section Positions

variable {covering : Row → List Nat} {minterms : List Row}

theorem soleCoverer?_eq_some_iff {row : Row} {i : Nat} :
    soleCoverer? covering row = some i ↔ covering row = [i] := by
  unfold soleCoverer?
  split
  · rename_i only sole
    rw [sole, Option.some.injEq, List.cons.injEq, and_iff_left rfl]
  · rename_i several
    constructor
    · intro impossible
      cases impossible
    · intro sole
      exact absurd sole (several i)

theorem mem_essentials {i : Nat} : i ∈ essentials covering minterms ↔ ∃ row ∈ minterms, covering row = [i] := by
  rw [essentials, mem_distinctOn_id, List.mem_filterMap]
  simp only [soleCoverer?_eq_some_iff]

theorem nodup_essentials : (essentials covering minterms).Nodup := nodup_distinctOn_id _

theorem mem_uncovered {chosen : IndexSet} {row : Row} :
    row ∈ uncovered covering chosen minterms ↔ row ∈ minterms ∧ ∀ i ∈ covering row, i ∉ chosen := by
  rw [uncovered, List.mem_filter, Bool.not_eq_true', List.any_eq_false]
  rfl

theorem clauses_eq_map (covered : ∀ row ∈ minterms, covering row ≠ []) :
    clauses covering minterms = .ok (minterms.map fun row => .ofList (covering row)) := by
  induction minterms with
  | nil => rfl
  | cons row rest ih =>
    have here := covered row List.mem_cons_self
    unfold clauses
    split
    · contradiction
    · rw [ih fun other member => covered other (List.mem_cons_of_mem row member)]
      rfl

end Positions

variable {implicants : List Implicant} {minterms : List Row}

theorem covers_iff {s : Finset Nat} :
    Covers implicants minterms s ↔ ∀ row ∈ minterms, ∃ i ∈ coverers implicants row, i ∈ s := by
  simp only [Covers, mem_coverers]
  refine forall₂_congr fun row _ => exists_congr fun i => ?_
  exact and_comm

theorem mem_openClauses {clause : IndexSet} :
    clause ∈ openClauses implicants minterms ↔
      ∃ row ∈ minterms, (∀ i ∈ coverers implicants row, i ∉ essentials (coverers implicants) minterms) ∧
        clause = .ofList (coverers implicants row) := by
  unfold openClauses
  simp only [List.mem_map, mem_uncovered, IndexSet.mem_ofList, and_assoc, eq_comm]

/-- A set covers the minterms exactly if it has the essential implicants and meets the open clauses. -/
theorem covers_iff_meets {s : Finset Nat} :
    Covers implicants minterms s ↔
      (essentials (coverers implicants) minterms).toFinset ⊆ s ∧ Meets (openClauses implicants minterms) s := by
  rw [covers_iff]
  constructor
  · intro covers
    constructor
    · intro i member
      obtain ⟨row, minterm, sole⟩ := mem_essentials.mp (List.mem_toFinset.mp member)
      obtain ⟨j, coversRow, inSet⟩ := covers row minterm
      rw [sole, List.mem_singleton] at coversRow
      exact coversRow ▸ inSet
    · intro clause member
      obtain ⟨row, minterm, _, rfl⟩ := mem_openClauses.mp member
      obtain ⟨i, coversRow, inSet⟩ := covers row minterm
      exact ⟨i, IndexSet.mem_ofList.mpr coversRow, inSet⟩
  · intro split row minterm
    obtain ⟨subset, meets⟩ := split
    -- The row is open, or an essential implicant covers it already.
    by_cases done : ∀ i ∈ coverers implicants row, i ∉ essentials (coverers implicants) minterms
    · obtain ⟨i, inClause, inSet⟩ := meets _ (mem_openClauses.mpr ⟨row, minterm, done, rfl⟩)
      exact ⟨i, IndexSet.mem_ofList.mp inClause, inSet⟩
    · push Not at done
      obtain ⟨i, coversRow, essential⟩ := done
      exact ⟨i, coversRow, subset (List.mem_toFinset.mpr essential)⟩

theorem Meets.mono {clauses : List IndexSet} {s t : Finset Nat} (subset : s ⊆ t) (meets : Meets clauses s) :
    Meets clauses t := by
  intro clause member
  obtain ⟨i, inClause, inSet⟩ := meets clause member
  exact ⟨i, inClause, subset inSet⟩

/-- The essential implicants are of no use for the open clauses. -/
theorem Meets.sdiff_essentials {s : Finset Nat} (meets : Meets (openClauses implicants minterms) s) :
    Meets (openClauses implicants minterms) (s \ (essentials (coverers implicants) minterms).toFinset) := by
  intro clause member
  obtain ⟨i, inClause, inSet⟩ := meets clause member
  obtain ⟨row, _, done, rfl⟩ := mem_openClauses.mp member
  have notEssential := done i (IndexSet.mem_ofList.mp inClause)
  exact ⟨i, inClause, Finset.mem_sdiff.mpr ⟨inSet, fun found => notEssential (List.mem_toFinset.mp found)⟩⟩

section MinimumCovers

/-- A completion has nothing in common with the essential implicants. -/
theorem disjoint_of_mem_smallest {completion : List Nat}
    (member : completion ∈ smallest (productsOf (openClauses implicants minterms))) :
    Disjoint (essentials (coverers implicants) minterms).toFinset completion.toFinset :=
  (exists_mem_smallest_iff.mp ⟨completion, member, rfl⟩).disjoint_of_free fun _ => Meets.sdiff_essentials

theorem exists_mem_minimumCovers_iff {s : Finset Nat} :
    (∃ cover ∈ minimumCovers implicants minterms, cover.toFinset = s) ↔
      Smallest (Covers implicants minterms) s := by
  rw [Smallest.iff_of_split (fun _ => covers_iff_meets) (fun _ _ => Meets.mono) fun _ => Meets.sdiff_essentials]
  unfold minimumCovers
  constructor
  · intro found
    obtain ⟨cover, member, rfl⟩ := found
    obtain ⟨completion, known, rfl⟩ := List.mem_map.mp member
    exact ⟨completion.toFinset, exists_mem_smallest_iff.mp ⟨completion, known, rfl⟩, List.toFinset_append⟩
  · intro found
    obtain ⟨t, smallest, rfl⟩ := found
    obtain ⟨completion, known, rfl⟩ := exists_mem_smallest_iff.mpr smallest
    exact ⟨_, List.mem_map_of_mem known, List.toFinset_append⟩

theorem covers_range (covered : ∀ row ∈ minterms, coverers implicants row ≠ []) :
    Covers implicants minterms (Finset.range implicants.length) := by
  rw [covers_iff]
  intro row minterm
  obtain ⟨i, coversRow⟩ := List.exists_mem_of_ne_nil _ (covered row minterm)
  obtain ⟨_, found, _⟩ := mem_coverers.mp coversRow
  exact ⟨i, coversRow, Finset.mem_range.mpr (List.getElem?_eq_some_iff.mp found).1⟩

theorem minimumCovers_ne_nil (covered : ∀ row ∈ minterms, coverers implicants row ≠ []) :
    minimumCovers implicants minterms ≠ [] := by
  obtain ⟨s, smallest⟩ := Smallest.exists_of_has (covers_range covered)
  obtain ⟨cover, member, _⟩ := exists_mem_minimumCovers_iff.mpr smallest
  exact List.ne_nil_of_mem member

/-- A completion covers the rows that the essential implicants leave open. -/
theorem covers_of_mem_smallest {completion : List Nat}
    (member : completion ∈ smallest (productsOf (openClauses implicants minterms))) {row : Row}
    (minterm : row ∈ minterms) (rowOpen : ¬Covers implicants [row] (essentials (coverers implicants) minterms).toFinset) :
    Covers implicants [row] completion.toFinset := by
  have listed : essentials (coverers implicants) minterms ++ completion ∈ minimumCovers implicants minterms :=
    List.mem_map_of_mem member
  have covers := (exists_mem_minimumCovers_iff.mp ⟨_, listed, rfl⟩).has
  obtain ⟨i, inCover, coversRow⟩ := covers row minterm
  rw [List.toFinset_append, Finset.mem_union] at inCover
  rcases inCover with essential | chosen
  · exact absurd (List.forall_mem_singleton.mpr ⟨i, essential, coversRow⟩) rowOpen
  · exact List.forall_mem_singleton.mpr ⟨i, chosen, coversRow⟩

theorem nodup_of_mem_minimumCovers {cover : List Nat} (member : cover ∈ minimumCovers implicants minterms) :
    cover.Nodup := by
  obtain ⟨completion, known, rfl⟩ := List.mem_map.mp member
  obtain ⟨s, _, rfl, _⟩ := mem_smallest.mp known
  apply List.Nodup.append nodup_essentials s.nodup_toList
  intro i first second
  exact Finset.disjoint_left.mp (disjoint_of_mem_smallest known) (List.mem_toFinset.mpr first)
    (List.mem_toFinset.mpr second)

theorem nodup_map_toFinset_minimumCovers : ((minimumCovers implicants minterms).map List.toFinset).Nodup := by
  unfold minimumCovers
  rw [List.map_map]
  refine List.Nodup.map_on ?_ (nodup_smallest (nodup_productsOf _))
  intro first inFirst second inSecond same
  obtain ⟨s, _, rfl, _⟩ := mem_smallest.mp inFirst
  obtain ⟨t, _, rfl, _⟩ := mem_smallest.mp inSecond
  simp only [Function.comp_apply, List.toFinset_append] at same
  -- Taking the essential implicants away leaves the two completions.
  have parts := congrArg (· \ (essentials (coverers implicants) minterms).toFinset) same
  simp only [Finset.union_sdiff_cancel_left (disjoint_of_mem_smallest inFirst),
    Finset.union_sdiff_cancel_left (disjoint_of_mem_smallest inSecond)] at parts
  exact congrArg IndexSet.toList (IndexSet.toFinset_injective parts)

end MinimumCovers

section Selection

variable (settings : Settings)

/-- Without an uncovered row there is one completion, the empty one, so the early end of the
selection is no exception. -/
theorem outcome_select (covered : ∀ row ∈ minterms, coverers implicants row ≠ []) :
    (select implicants minterms settings).outcome =
      (distribute settings.coverLimit [∅] (openClauses implicants minterms)).map fun products =>
        (smallest products).map (essentials (coverers implicants) minterms ++ ·) := by
  have coverage : (fun row => (coverage implicants).getD row []) = coverers implicants := lookup_eq_coverers implicants
  have table : clauses (coverers implicants)
      (uncovered (coverers implicants) (.ofList (essentials (coverers implicants) minterms)) minterms) =
        .ok (openClauses implicants minterms) :=
    clauses_eq_map fun row member => covered row (mem_uncovered.mp member).1
  unfold select
  simp only [coverage, Logged.outcome_bind, Logged.outcome_log]
  show Logged.outcome (if _ then _ else _) = _
  by_cases done : (uncovered (coverers implicants) (.ofList (essentials (coverers implicants) minterms))
      minterms).isEmpty = true
  · have closed : openClauses implicants minterms = [] := by
      unfold openClauses
      dsimp only
      rw [List.isEmpty_iff.mp done, List.map_nil]
    rw [if_pos done, closed]
    show Except.ok [_] = Except.ok ((smallest [∅]).map _)
    rw [smallest_singleton_empty, List.map_singleton, List.append_nil]
  · rw [if_neg done]
    simp only [table, Logged.outcome_bind, Logged.outcome_log, Logged.outcome_ofExcept]
    show Except.bind (distribute settings.coverLimit [∅] (openClauses implicants minterms)) _ = _
    cases distribute settings.coverLimit [∅] (openClauses implicants minterms) <;> rfl

end Selection

end Cover

end TwoLevel
