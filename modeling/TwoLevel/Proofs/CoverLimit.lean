import Mathlib.Data.Set.Card
import TwoLevel.Proofs.MinimalForms

/-! The limit on the cover search. The clauses of the open rows are multiplied out one after the
other, and the search fails exactly if after some clause there are more products than the limit
allows. The products are counted here as sets of prime implicants, one chosen for each row. -/

set_option autoImplicit false

namespace TwoLevel

namespace Cover

/-- The implicant alone covers some minterm. -/
def IsEssential (implicants : List Implicant) (minterms : List Row) (m : Implicant) : Prop :=
  ∃ row ∈ minterms, ∀ other ∈ implicants, other.covers row = true ↔ other = m

instance (implicants : List Implicant) (minterms : List Row) (m : Implicant) :
    Decidable (IsEssential implicants minterms m) :=
  inferInstanceAs (Decidable (∃ row ∈ minterms, _))

/-- The minterms that no essential implicant covers, in their order. -/
def openRows (implicants : List Implicant) (minterms : List Row) : List Row :=
  minterms.filter fun row => decide (∀ m ∈ implicants, IsEssential implicants minterms m → ¬m.covers row = true)

/-- For each open row, the implicants that cover it. -/
def openCovers (implicants : List Implicant) (minterms : List Row) : List (Finset Implicant) :=
  (openRows implicants minterms).map fun row => implicants.toFinset.filter fun m => m.covers row = true

/-- The sets that the choices of one member from each set yield. -/
def choiceSets (sets : List (Finset Implicant)) : Set (Finset Implicant) :=
  {s | ∃ choice, List.Forall₂ (· ∈ ·) choice sets ∧ choice.toFinset = s}

/-- One set alone leaves as many choices as it has members. -/
theorem ncard_choiceSets_singleton (C : Finset Implicant) : (choiceSets [C]).ncard = C.card := by
  have image : choiceSets [C] = (fun m => {m}) '' (C : Set Implicant) := by
    ext s
    constructor
    · rintro ⟨_, chosen, rfl⟩
      cases chosen with
      | cons here rest =>
        cases rest
        exact ⟨_, here, rfl⟩
    · rintro ⟨m, member, rfl⟩
      exact ⟨[m], .cons member .nil, rfl⟩
  rw [image, Set.ncard_image_of_injective _ (Finset.singleton_injective), Set.ncard_coe_finset]

/-- After some open row there are more choices than the limit. -/
def Exceeds (implicants : List Implicant) (minterms : List Row) (limit : Nat) : Prop :=
  ∃ j, 1 ≤ j ∧ j ≤ (openCovers implicants minterms).length ∧
    limit < (choiceSets ((openCovers implicants minterms).take j)).ncard

theorem Exceeds.of_le {implicants : List Implicant} {minterms : List Row} {limit larger : Nat} (le : limit ≤ larger)
    (exceeds : Exceeds implicants minterms larger) : Exceeds implicants minterms limit := by
  obtain ⟨j, first, last, more⟩ := exceeds
  exact ⟨j, first, last, Nat.lt_of_le_of_lt le more⟩

section Distribution

variable {limit : Nat} {products clauses : List IndexSet}

theorem exceeded?_some (limit count : Nat) :
    exceeded? (some limit) count = if limit < count then some limit else none := by
  simp [exceeded?, Option.filter]

/-- The limit is exceeded after one of the clauses, the first of them included. -/
theorem distribute_eq_error_iff :
    distribute (some limit) products clauses = .error (.coverLimit limit) ↔
      ∃ j, 1 ≤ j ∧ j ≤ clauses.length ∧ limit < ((clauses.take j).foldl extend products).length := by
  induction clauses generalizing products with
  | nil =>
    refine ⟨nofun, ?_⟩
    rintro ⟨j, first, last, _⟩
    exact absurd (Nat.le_trans first last) (Nat.not_succ_le_zero 0)
  | cons clause clauses ih =>
    rw [distribute, extendFrom_empty, exceeded?_some]
    by_cases more : limit < (extend products clause).length
    · rw [if_pos more]
      exact iff_of_true rfl ⟨1, Nat.le_refl 1, Nat.succ_le_succ (Nat.zero_le _), more⟩
    · rw [if_neg more]
      -- After this clause the search goes on, and every later clause is one place further on.
      refine ih.trans ⟨?_, ?_⟩
      · rintro ⟨j, _, last, later⟩
        exact ⟨j + 1, Nat.succ_le_succ (Nat.zero_le j), Nat.succ_le_succ last, later⟩
      · rintro ⟨_ | _ | j, first, last, later⟩
        · exact absurd first (Nat.not_succ_le_zero 0)
        · exact absurd later more
        · exact ⟨j + 1, Nat.succ_le_succ (Nat.zero_le j), Nat.le_of_succ_le_succ last, later⟩

end Distribution

section Positions

variable {implicants : List Implicant} {minterms : List Row} {clauses : List IndexSet}

/-- The implicants at the positions of a set. -/
def implicantsAt (implicants : List Implicant) (s : IndexSet) : Finset Implicant := chosenAt implicants s.toFinset

theorem mem_implicantsAt {s : IndexSet} {m : Implicant} :
    m ∈ implicantsAt implicants s ↔ m ∈ implicants ∧ implicants.idxOf m ∈ s := by
  unfold implicantsAt chosenAt
  rw [Finset.mem_filter, List.mem_toFinset, IndexSet.mem_toFinset]

/-- The positions of a clause are those of implicants. -/
def InRange (implicants : List Implicant) (clauses : List IndexSet) : Prop :=
  ∀ clause ∈ clauses, ∀ i ∈ clause, i < implicants.length

/-- Choosing positions is choosing implicants. -/
theorem forall₂_mem_iff (nodup : implicants.Nodup) (inRange : InRange implicants clauses) {positions : List Nat} :
    List.Forall₂ (· ∈ ·) positions clauses ↔
      ∃ choice, List.Forall₂ (· ∈ ·) choice (clauses.map (implicantsAt implicants)) ∧
        choice.map implicants.idxOf = positions := by
  constructor
  · intro chosen
    induction chosen with
    | nil => exact ⟨[], .nil, rfl⟩
    | @cons i clause positions clauses inClause _ ih =>
      obtain ⟨here, later⟩ := List.forall_mem_cons.mp inRange
      obtain ⟨choice, rest, rfl⟩ := ih later
      have small : i < implicants.length := here i inClause
      have position : implicants.idxOf implicants[i] = i := nodup.idxOf_getElem i small
      refine ⟨implicants[i] :: choice, .cons (mem_implicantsAt.mpr ⟨List.getElem_mem _, ?_⟩) rest, ?_⟩
      · rwa [position]
      · rw [List.map_cons, position]
  · rintro ⟨choice, chosen, rfl⟩
    rw [List.forall₂_map_right_iff] at chosen
    rw [List.forall₂_map_left_iff]
    exact chosen.imp fun m clause member => (mem_implicantsAt.mp member).2

theorem toFinset_eq_implicantsAt {choice : List Implicant} (known : ∀ m ∈ choice, m ∈ implicants) :
    choice.toFinset = implicantsAt implicants (.ofList (choice.map implicants.idxOf)) := by
  ext m
  rw [List.mem_toFinset, mem_implicantsAt, IndexSet.mem_ofList, List.mem_map]
  constructor
  · intro member
    exact ⟨known m member, m, member, rfl⟩
  · rintro ⟨_, other, member, same⟩
    exact (List.idxOf_inj (known other member)).mp same ▸ member

theorem mem_of_forall₂ {choice : List Implicant}
    (chosen : List.Forall₂ (· ∈ ·) choice (clauses.map (implicantsAt implicants))) : ∀ m ∈ choice, m ∈ implicants := by
  rw [List.forall₂_map_right_iff] at chosen
  induction chosen with
  | nil => exact fun m member => absurd member List.not_mem_nil
  | cons here _ ih => exact List.forall_mem_cons.mpr ⟨(mem_implicantsAt.mp here).1, ih⟩

theorem choiceSets_eq_image (nodup : implicants.Nodup) (inRange : InRange implicants clauses) :
    choiceSets (clauses.map (implicantsAt implicants)) =
      implicantsAt implicants '' {s | s ∈ productsOf clauses} := by
  ext s
  constructor
  · rintro ⟨choice, chosen, rfl⟩
    refine ⟨_, mem_productsOf.mpr ⟨_, (forall₂_mem_iff nodup inRange).mpr ⟨choice, chosen, rfl⟩, rfl⟩, ?_⟩
    exact (toFinset_eq_implicantsAt (mem_of_forall₂ chosen)).symm
  · rintro ⟨_, product, rfl⟩
    obtain ⟨positions, inClauses, rfl⟩ := mem_productsOf.mp product
    obtain ⟨choice, chosen, rfl⟩ := (forall₂_mem_iff nodup inRange).mp inClauses
    exact ⟨choice, chosen, toFinset_eq_implicantsAt (mem_of_forall₂ chosen)⟩

theorem lt_length_of_mem_productsOf (inRange : InRange implicants clauses) {s : IndexSet}
    (product : s ∈ productsOf clauses) : ∀ i ∈ s, i < implicants.length := by
  obtain ⟨positions, chosen, rfl⟩ := mem_productsOf.mp product
  clear product
  simp only [IndexSet.mem_ofList]
  induction chosen with
  | nil => exact fun i member => absurd member List.not_mem_nil
  | cons here _ ih =>
    obtain ⟨small, later⟩ := List.forall_mem_cons.mp inRange
    exact List.forall_mem_cons.mpr ⟨small _ here, ih later⟩

theorem injOn_implicantsAt (nodup : implicants.Nodup) (inRange : InRange implicants clauses) :
    Set.InjOn (implicantsAt implicants) {s | s ∈ productsOf clauses} := by
  have subset : ∀ s ∈ productsOf clauses, ∀ t, implicantsAt implicants s = implicantsAt implicants t →
      ∀ i ∈ s, i ∈ t := by
    intro s product t same i member
    have small := lt_length_of_mem_productsOf inRange product i member
    have position : implicants.idxOf implicants[i] = i := nodup.idxOf_getElem i small
    have chosen : implicants[i] ∈ implicantsAt implicants t := by
      rw [← same, mem_implicantsAt, position]
      exact ⟨List.getElem_mem small, member⟩
    exact position ▸ (mem_implicantsAt.mp chosen).2
  intro s first t second same
  exact IndexSet.ext_of_mem fun i => ⟨subset s first t same i, subset t second s same.symm i⟩

/-- There are as many products as sets of chosen implicants. -/
theorem ncard_choiceSets (nodup : implicants.Nodup) (inRange : InRange implicants clauses) :
    (choiceSets (clauses.map (implicantsAt implicants))).ncard = (productsOf clauses).length := by
  rw [choiceSets_eq_image nodup inRange, (injOn_implicantsAt nodup inRange).ncard_image,
    ← List.coe_toFinset, Set.ncard_coe_finset, List.toFinset_card_of_nodup (nodup_productsOf clauses)]

end Positions

section OpenRows

variable {implicants : List Implicant} {minterms : List Row}

theorem idxOf_mem_coverers_iff (nodup : implicants.Nodup) {m : Implicant} (known : m ∈ implicants) {row : Row} :
    implicants.idxOf m ∈ coverers implicants row ↔ m.covers row = true := by
  rw [mem_coverers]
  constructor
  · rintro ⟨other, found, covers⟩
    obtain ⟨member, same⟩ := (getElem?_eq_some_iff_idxOf nodup).mp found
    exact (List.idxOf_inj member).mp same ▸ covers
  · intro covers
    exact ⟨m, (getElem?_eq_some_iff_idxOf nodup).mpr ⟨known, rfl⟩, covers⟩

theorem coverers_eq_singleton_iff (nodup : implicants.Nodup) {m : Implicant} (known : m ∈ implicants) {row : Row} :
    coverers implicants row = [implicants.idxOf m] ↔ ∀ other ∈ implicants, other.covers row = true ↔ other = m := by
  constructor
  · intro sole other member
    rw [← idxOf_mem_coverers_iff nodup member, sole, List.mem_singleton, List.idxOf_inj member]
  · intro only
    apply coverers_eq_singleton_iff_forall.mpr
    intro i
    constructor
    · intro covers
      obtain ⟨other, found, coversRow⟩ := mem_coverers.mp covers
      obtain ⟨member, rfl⟩ := (getElem?_eq_some_iff_idxOf nodup).mp found
      rw [(only other member).mp coversRow]
    · rintro rfl
      exact (idxOf_mem_coverers_iff nodup known).mpr ((only m known).mpr rfl)

theorem idxOf_mem_essentials_iff (nodup : implicants.Nodup) {m : Implicant} (known : m ∈ implicants) :
    implicants.idxOf m ∈ essentials (coverers implicants) minterms ↔ IsEssential implicants minterms m := by
  rw [mem_essentials]
  simp only [coverers_eq_singleton_iff nodup known]
  rfl

theorem openRows_eq (nodup : implicants.Nodup) :
    openRows implicants minterms =
      uncovered (coverers implicants) (.ofList (essentials (coverers implicants) minterms)) minterms := by
  unfold openRows uncovered
  apply List.filter_congr
  intro row _
  rw [Bool.eq_iff_iff, decide_eq_true_eq, Bool.not_eq_true', List.any_eq_false]
  constructor
  · intro free i covers chosen
    obtain ⟨m, found, coversRow⟩ := mem_coverers.mp covers
    obtain ⟨known, rfl⟩ := (getElem?_eq_some_iff_idxOf nodup).mp found
    exact free m known ((idxOf_mem_essentials_iff nodup known).mp (IndexSet.mem_ofList.mp chosen)) coversRow
  · intro free m known essential coversRow
    refine free _ ((idxOf_mem_coverers_iff nodup known).mpr coversRow) (IndexSet.mem_ofList.mpr ?_)
    exact (idxOf_mem_essentials_iff nodup known).mpr essential

theorem openCovers_eq (nodup : implicants.Nodup) :
    openCovers implicants minterms = (openClauses implicants minterms).map (implicantsAt implicants) := by
  unfold openCovers openClauses
  rw [openRows_eq nodup, List.map_map]
  refine List.map_congr_left fun row _ => Finset.ext fun m => ?_
  rw [Finset.mem_filter, List.mem_toFinset, Function.comp_apply, mem_implicantsAt, IndexSet.mem_ofList]
  exact and_congr_right fun known => (idxOf_mem_coverers_iff nodup known).symm

theorem inRange_openClauses : InRange implicants (openClauses implicants minterms) := by
  intro clause member i inClause
  obtain ⟨row, _, _, rfl⟩ := mem_openClauses.mp member
  obtain ⟨m, found, _⟩ := mem_coverers.mp (IndexSet.mem_ofList.mp inClause)
  exact (List.getElem?_eq_some_iff.mp found).1

/-- The search through the open clauses fails exactly if there are too many choices. -/
theorem distribute_openClauses_eq_error_iff (nodup : implicants.Nodup) {limit : Nat} :
    distribute (some limit) [∅] (openClauses implicants minterms) = .error (.coverLimit limit) ↔
      Exceeds implicants minterms limit := by
  rw [distribute_eq_error_iff]
  unfold Exceeds
  rw [openCovers_eq nodup, List.length_map]
  refine exists_congr fun j => and_congr_right fun _ => and_congr_right fun _ => ?_
  have inRange : InRange implicants ((openClauses implicants minterms).take j) :=
    fun clause member => inRange_openClauses clause (List.mem_of_mem_take member)
  rw [← List.map_take, ncard_choiceSets nodup inRange]
  rfl

end OpenRows

end Cover

namespace Minimization

/-- With a limit, a minimization of valid rows fails exactly if after some open row there are more
choices of prime implicants than the limit, and otherwise yields what it yields without one. So
what it yields under a limit it yields under every larger one. -/
theorem run_limit_exact (minterms dontCares : RowSet) (vars : List String) (settings : Settings)
    (valid : Valid vars.length minterms dontCares) :
    ∃ m primes, (run minterms dontCares vars { settings with coverLimit := none }).outcome = .ok m ∧
      m.primes = .ok primes ∧
      ∀ limit,
        ((run minterms dontCares vars { settings with coverLimit := some limit }).outcome = .error (.coverLimit limit) ↔
          Cover.Exceeds primes minterms.toList limit) ∧
        (¬Cover.Exceeds primes minterms.toList limit →
          (run minterms dontCares vars { settings with coverLimit := some limit }).outcome = .ok m) ∧
        ∀ found larger, limit ≤ larger →
          (run minterms dontCares vars { settings with coverLimit := some limit }).outcome = .ok found →
          (run minterms dontCares vars { settings with coverLimit := some larger }).outcome = .ok found := by
  have fails : ∀ limit,
      (run minterms dontCares vars { settings with coverLimit := some limit }).outcome = .error (.coverLimit limit) ↔
        Cover.Exceeds (primesOf vars.length minterms dontCares) minterms.toList limit := by
    intro limit
    rw [← Cover.distribute_openClauses_eq_error_iff (nodup_primesOf valid), outcome_run_eq_map valid]
    cases Cover.distribute (some limit) [∅]
      (Cover.openClauses (primesOf vars.length minterms dontCares) minterms.toList) with
    | error error => exact ⟨fun failed => by cases failed; rfl, fun failed => by cases failed; rfl⟩
    | ok products => exact iff_of_false nofun nofun
  have succeeds : ∀ limit, ¬Cover.Exceeds (primesOf vars.length minterms dontCares) minterms.toList limit →
      (run minterms dontCares vars { settings with coverLimit := some limit }).outcome =
        .ok ⟨vars, minterms, dontCares, some (outcomeOf vars.length minterms dontCares)⟩ := by
    intro limit within
    rcases outcome_run valid { settings with coverLimit := some limit } with done | ⟨_, given, failed⟩
    · exact done
    · cases given
      exact absurd ((fails limit).mp failed) within
  refine ⟨_, primesOf vars.length minterms dontCares, outcome_run_of_no_limit valid rfl, rfl, fun limit =>
    ⟨fails limit, succeeds limit, fun found larger le done => ?_⟩⟩
  have within : ¬Cover.Exceeds (primesOf vars.length minterms dontCares) minterms.toList limit := by
    intro exceeds
    rw [(fails limit).mpr exceeds] at done
    cases done
  rw [← done, succeeds limit within, succeeds larger fun exceeds => within (exceeds.of_le le)]

/-- The only minterm is covered by two prime implicants, which are two choices. -/
theorem run_limit_exact_two_choices :
    (run (.ofList [3]) (.ofList [1, 2]) ["A", "B"] { coverLimit := some 1 }).outcome = .error (.coverLimit 1) := by
  have valid : Valid ["A", "B"].length (.ofList [3]) (.ofList [1, 2]) := by decide
  obtain ⟨m, primes, done, reported, exact⟩ := run_limit_exact (.ofList [3]) (.ofList [1, 2]) ["A", "B"] {} valid
  cases (outcome_run_of_no_limit valid rfl).symm.trans done
  cases reported
  have prime : ∀ p : Pattern, p.IsPrime (.ofList [3]) (.ofList [1, 2]) 2 →
      3 ∈ (Implicant.complete (.ofList [1, 2]) p).rows →
      .complete (.ofList [1, 2]) p ∈ (primesOf 2 (.ofList [3]) (.ofList [1, 2])).toFinset.filter (·.covers 3 = true) :=
    fun p isPrime covers => Finset.mem_filter.mpr
      ⟨List.mem_toFinset.mpr ((mem_primesOf valid).mpr ⟨p, isPrime, rfl⟩), decide_eq_true covers⟩
  have first := prime [.absent, .asserted] (by decide) (by decide)
  have second := prime [.asserted, .absent] (by decide) (by decide)
  have different : Implicant.complete (.ofList [1, 2]) [.absent, .asserted] ≠
      .complete (.ofList [1, 2]) [.asserted, .absent] := by decide
  have rowOpen : Cover.openRows (primesOf 2 (.ofList [3]) (.ofList [1, 2])) [3] = [3] := by
    apply List.filter_eq_self.mpr
    intro row _
    rw [decide_eq_true_eq]
    rintro m _ ⟨minterm, sole, only⟩ _
    cases List.mem_singleton.mp sole
    have same : ∀ other ∈ (primesOf 2 (.ofList [3]) (.ofList [1, 2])).toFinset.filter (·.covers 3 = true), other = m :=
      fun other member => (only other (List.mem_toFinset.mp (Finset.mem_filter.mp member).1)).mp
        (Finset.mem_filter.mp member).2
    exact different ((same _ first).trans (same _ second).symm)
  have covers : Cover.openCovers (primesOf 2 (.ofList [3]) (.ofList [1, 2])) [3] =
      [(primesOf 2 (.ofList [3]) (.ofList [1, 2])).toFinset.filter (·.covers 3 = true)] := by
    unfold Cover.openCovers
    rw [rowOpen]
    rfl
  have exceeds : Cover.Exceeds (primesOf 2 (.ofList [3]) (.ofList [1, 2])) [3] 1 := by
    unfold Cover.Exceeds
    rw [covers]
    refine ⟨1, Nat.le_refl 1, Nat.le_refl 1, ?_⟩
    rw [List.take_succ_cons, List.take_zero, Cover.ncard_choiceSets_singleton]
    exact Finset.one_lt_card.mpr ⟨_, first, _, second, different⟩
  exact (exact 1).1.mpr exceeds

end Minimization

end TwoLevel
