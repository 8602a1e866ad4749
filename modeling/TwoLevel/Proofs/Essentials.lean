import TwoLevel.Proofs.Covering

/-! The essential implicants. They are found as the only ones that cover some row, in one pass
over the rows that also marks the rows they cover, and they are exactly the implicants that no
cover can do without. -/

set_option autoImplicit false

namespace TwoLevel.Cover

/-- What a pass over the rows has found so far: the essential implicants, and for each row
whether one of them covers it. -/
structure Marking where
  found : List Nat
  marks : List Bool
  deriving DecidableEq

section Pass

variable (covering : Row → List Nat) (minterms : List Row)

/-- Mark all rows that the found implicants cover. -/
def Marking.ofFound (found : List Nat) : Marking := ⟨found, minterms.map fun row => (covering row).any found.contains⟩

/-- Look at one row. The only implicant that covers it is added, unless it is known, and its rows
are marked. -/
def Marking.visit (marking : Marking) (row : Row) : Marking :=
  match soleCoverer? covering row with
  | some only =>
    if only ∈ marking.found then marking
    else ⟨marking.found ++ [only], marking.marks.zipWith or (minterms.map fun row => (covering row).contains only)⟩
  | none => marking

/-- The pass over all rows. It begins with no implicant and no mark. -/
def markEssentials : Marking := minterms.foldl (Marking.visit covering minterms) ⟨[], minterms.map fun _ => false⟩

variable {covering minterms}

theorem essentials_concat (row : Row) :
    essentials covering (minterms ++ [row]) =
      match soleCoverer? covering row with
      | some i => if i ∈ essentials covering minterms then essentials covering minterms
        else essentials covering minterms ++ [i]
      | none => essentials covering minterms := by
  unfold essentials
  rw [List.filterMap_append]
  cases sole : soleCoverer? covering row with
  | none => rw [List.filterMap_cons_none sole, List.filterMap_nil, List.append_nil]
  | some i =>
    rw [List.filterMap_cons_some sole, List.filterMap_nil, distinctOn_concat]
    simp only [List.map_id, id_eq, mem_distinctOn_id]

theorem any_contains_concat (row : Row) (found : List Nat) (i : Nat) :
    (covering row).any (found ++ [i]).contains = ((covering row).any found.contains || (covering row).contains i) := by
  rw [Bool.eq_iff_iff]
  simp only [List.any_eq_true, List.contains_iff_mem, List.mem_append, List.mem_singleton, Bool.or_eq_true]
  constructor
  · rintro ⟨j, coversRow, known | rfl⟩
    · exact .inl ⟨j, coversRow, known⟩
    · exact .inr coversRow
  · rintro (⟨j, coversRow, known⟩ | coversRow)
    · exact ⟨j, coversRow, .inl known⟩
    · exact ⟨i, coversRow, .inr rfl⟩

/-- One step keeps the marks those of the implicants found. -/
theorem visit_ofFound (passed : List Row) (row : Row) :
    (Marking.ofFound covering minterms (essentials covering passed)).visit covering minterms row =
      .ofFound covering minterms (essentials covering (passed ++ [row])) := by
  rw [essentials_concat, Marking.visit]
  split
  · show (if _ ∈ essentials covering passed then _ else _) = _
    split
    · rfl
    · rw [Marking.ofFound, Marking.ofFound, List.zipWith_map, List.zipWith_self]
      simp only [any_contains_concat]
  · rfl

/-- So does the whole pass, whichever rows have been passed. -/
theorem foldl_visit (passed : List Row) :
    passed.foldl (Marking.visit covering minterms) ⟨[], minterms.map fun _ => false⟩ =
      .ofFound covering minterms (essentials covering passed) := by
  induction passed using List.reverseRecOn with
  | nil =>
    have unmarked : ∀ row ∈ minterms, false = (covering row).any ([] : List Nat).contains := fun row _ =>
      (List.any_eq_false.mpr fun _ _ => Bool.false_ne_true).symm
    exact congrArg (Marking.mk []) (List.map_congr_left unmarked)
  | append_singleton passed row ih => rw [List.foldl_append, ih, List.foldl_cons, List.foldl_nil, visit_ofFound]

theorem notMem_uncovered_iff {chosen : List Nat} {row : Row} (minterm : row ∈ minterms) :
    row ∉ uncovered covering (.ofList chosen) minterms ↔ ∃ i ∈ covering row, i ∈ chosen := by
  rw [mem_uncovered, and_iff_right minterm]
  push Not
  simp only [IndexSet.mem_ofList]

/-- The pass finds the essential implicants, and the rows that it leaves unmarked are the uncovered ones. -/
theorem markEssentials_eq :
    markEssentials covering minterms =
      ⟨essentials covering minterms,
        minterms.map fun row => decide (row ∉ uncovered covering (.ofList (essentials covering minterms)) minterms)⟩ := by
  rw [markEssentials, foldl_visit, Marking.ofFound]
  refine congrArg (Marking.mk _) (List.map_congr_left fun row minterm => ?_)
  rw [Bool.eq_iff_iff, decide_eq_true_eq, notMem_uncovered_iff minterm]
  simp only [List.any_eq_true, List.contains_iff_mem]

end Pass

variable {implicants : List Implicant} {minterms : List Row} {i : Nat}

theorem coverers_ne_nil {row : Row} (covered : ∃ m ∈ implicants, m.covers row = true) : coverers implicants row ≠ [] := by
  obtain ⟨m, member, coversRow⟩ := covered
  obtain ⟨i, found⟩ := List.mem_iff_getElem?.mp member
  exact List.ne_nil_of_mem (mem_coverers.mpr ⟨m, found, coversRow⟩)

/-- An implicant that is not essential leaves every minterm to another one. -/
theorem exists_other_coverer {row : Row} (minterm : row ∈ minterms) (covered : coverers implicants row ≠ [])
    (optional : i ∉ essentials (coverers implicants) minterms) : ∃ j ∈ coverers implicants row, j ≠ i := by
  by_contra noOther
  push Not at noOther
  obtain ⟨j, rest⟩ := List.exists_mem_of_ne_nil _ covered
  have sole : coverers implicants row = [i] := by
    apply coverers_eq_singleton_iff_forall.mpr
    intro k
    constructor
    · exact noOther k
    · rintro rfl
      exact noOther j rest ▸ rest
  exact optional (mem_essentials.mpr ⟨row, minterm, sole⟩)

/-- All the others together are a cover. -/
theorem covers_erase (covered : ∀ row ∈ minterms, coverers implicants row ≠ [])
    (optional : i ∉ essentials (coverers implicants) minterms) :
    Covers implicants minterms ((Finset.range implicants.length).erase i) := by
  rw [covers_iff]
  intro row minterm
  obtain ⟨j, coversRow, other⟩ := exists_other_coverer minterm (covered row minterm) optional
  obtain ⟨_, found, _⟩ := mem_coverers.mp coversRow
  have inRange := (List.getElem?_eq_some_iff.mp found).1
  exact ⟨j, coversRow, Finset.mem_erase.mpr ⟨other, Finset.mem_range.mpr inRange⟩⟩

theorem mem_essentials_iff_forall (covered : ∀ row ∈ minterms, coverers implicants row ≠ []) :
    i ∈ essentials (coverers implicants) minterms ↔
      ∀ positions, Covers implicants minterms positions → i ∈ positions := by
  constructor
  · intro essential positions covers
    exact (covers_iff_meets.mp covers).1 (List.mem_toFinset.mpr essential)
  · intro unavoidable
    by_contra optional
    exact Finset.notMem_erase i _ (unavoidable _ (covers_erase covered optional))

/-- The first thing that the selection reports is the essential implicants. -/
theorem head?_events_select (settings : Settings) :
    (select implicants minterms settings).events.head? =
      some (.essentials ((essentials (lookup implicants) minterms).filterMap fun i => implicants[i]?.map (·.pattern))) := rfl

/-- The essential implicants that the selection computes and reports first are those that belong to
every cover, each listed once. One pass over the minterms finds the same and marks the minterms
that count as covered, which are those that an essential implicant covers. -/
theorem essentials_unavoidable (implicants : List Implicant) (minterms : List Row) (settings : Settings)
    (covered : ∀ row ∈ minterms, ∃ m ∈ implicants, m.covers row = true) :
    let found := essentials (lookup implicants) minterms
    let rest := uncovered (lookup implicants) (.ofList found) minterms
    (select implicants minterms settings).events.head? =
        some (.essentials (found.filterMap fun i => implicants[i]?.map (·.pattern))) ∧
      (∀ i, i ∈ found ↔ ∀ positions, Covers implicants minterms positions → i ∈ positions) ∧
      found.Nodup ∧
      markEssentials (lookup implicants) minterms = ⟨found, minterms.map fun row => decide (row ∉ rest)⟩ ∧
      ∀ row ∈ minterms, row ∉ rest ↔ ∃ i ∈ found, ∃ m, implicants[i]? = some m ∧ m.covers row = true := by
  refine ⟨head?_events_select settings, ?unavoidable, nodup_essentials, markEssentials_eq, ?marked⟩
  case unavoidable =>
    intro i
    rw [lookup_eq_coverers]
    exact mem_essentials_iff_forall fun row minterm => coverers_ne_nil (covered row minterm)
  case marked =>
    intro row minterm
    rw [notMem_uncovered_iff minterm, lookup_eq_coverers]
    simp only [← mem_coverers]
    exact exists_congr fun i => and_comm

/-- The prime implicants of a function of four variables with more than one smallest cover. -/
def sevenPrimes : List Implicant := [
  ⟨[.absent, .asserted, .negated, .negated], .ofList [4, 12], false, false⟩,
  ⟨[.asserted, .negated, .negated, .absent], .ofList [8, 9], false, false⟩,
  ⟨[.asserted, .absent, .negated, .negated], .ofList [8, 12], false, false⟩,
  ⟨[.asserted, .negated, .absent, .asserted], .ofList [9, 11], false, false⟩,
  ⟨[.negated, .asserted, .absent, .absent], .ofList [4, 5, 6, 7], false, false⟩,
  ⟨[.negated, .absent, .asserted, .absent], .ofList [2, 3, 6, 7], false, false⟩,
  ⟨[.absent, .absent, .asserted, .asserted], .ofList [3, 7, 11, 15], false, false⟩]

/-- Only `01--` covers row 5; each of the two that cover row 11 can be left out. -/
theorem essentials_unavoidable_four_variables :
    (∀ positions, Covers sevenPrimes [4, 5, 6, 7, 8, 9, 11] positions → 4 ∈ positions) ∧
      ∃ positions, Covers sevenPrimes [4, 5, 6, 7, 8, 9, 11] positions ∧ 3 ∉ positions := by
  obtain ⟨_, unavoidable, _⟩ := essentials_unavoidable sevenPrimes [4, 5, 6, 7, 8, 9, 11] {} (by decide)
  simp only [lookup_eq_coverers, mem_essentials] at unavoidable
  constructor
  · exact (unavoidable 4).mp (by decide)
  · by_contra always
    push Not at always
    exact absurd ((unavoidable 3).mpr always) (by decide)

end TwoLevel.Cover
