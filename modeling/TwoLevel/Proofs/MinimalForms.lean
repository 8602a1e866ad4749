import Mathlib.Data.Finset.Powerset
import TwoLevel.Proofs.Minimization

/-! The minimal forms as sets of prime implicants: each smallest set that covers the minterms
is the set of products of one form. No sum of products has fewer terms, whether or not its
terms are prime. -/

set_option autoImplicit false

namespace TwoLevel

namespace Cover

/-- A set of the given implicants that covers every minterm. -/
structure IsCover (implicants : List Implicant) (minterms : List Row) (s : Finset Implicant) : Prop where
  subset : s ⊆ implicants.toFinset
  covers : ∀ row ∈ minterms, ∃ m ∈ s, m.covers row = true

theorem isCover_iff {implicants : List Implicant} {minterms : List Row} {s : Finset Implicant} :
    IsCover implicants minterms s ↔ s ⊆ implicants.toFinset ∧ ∀ row ∈ minterms, ∃ m ∈ s, m.covers row = true := by
  constructor
  · intro isCover
    exact ⟨isCover.subset, isCover.covers⟩
  · intro facts
    exact ⟨facts.1, facts.2⟩

instance (implicants : List Implicant) (minterms : List Row) (s : Finset Implicant) :
    Decidable (IsCover implicants minterms s) := decidable_of_iff _ isCover_iff.symm

/-- The implicants at a set of positions. -/
def chosenAt (implicants : List Implicant) (positions : Finset Nat) : Finset Implicant :=
  implicants.toFinset.filter fun m => implicants.idxOf m ∈ positions

section Positions

variable {implicants : List Implicant} {minterms : List Row}

theorem getElem?_eq_some_iff_idxOf (nodup : implicants.Nodup) {i : Nat} {m : Implicant} :
    implicants[i]? = some m ↔ m ∈ implicants ∧ implicants.idxOf m = i := by
  constructor
  · intro found
    obtain ⟨inRange, rfl⟩ := List.getElem?_eq_some_iff.mp found
    exact ⟨List.getElem_mem inRange, nodup.idxOf_getElem i inRange⟩
  · intro facts
    obtain ⟨member, rfl⟩ := facts
    exact List.getElem?_eq_some_iff.mpr ⟨List.idxOf_lt_length_of_mem member, List.getElem_idxOf _⟩

theorem injOn_idxOf {s : Finset Implicant} (subset : s ⊆ implicants.toFinset) :
    Set.InjOn implicants.idxOf (s : Set Implicant) := by
  intro first inFirst second _ same
  exact (List.idxOf_inj (List.mem_toFinset.mp (subset inFirst))).mp same

theorem card_image_idxOf {s : Finset Implicant} (subset : s ⊆ implicants.toFinset) :
    (s.image implicants.idxOf).card = s.card :=
  Finset.card_image_of_injOn (injOn_idxOf subset)

theorem chosenAt_subset (positions : Finset Nat) : chosenAt implicants positions ⊆ implicants.toFinset :=
  Finset.filter_subset _ _

theorem image_chosenAt_subset (positions : Finset Nat) :
    (chosenAt implicants positions).image implicants.idxOf ⊆ positions := by
  intro i member
  obtain ⟨m, chosen, rfl⟩ := Finset.mem_image.mp member
  exact (Finset.mem_filter.mp chosen).2

theorem covers_image_iff (nodup : implicants.Nodup) {s : Finset Implicant} (subset : s ⊆ implicants.toFinset) :
    Covers implicants minterms (s.image implicants.idxOf) ↔ IsCover implicants minterms s := by
  constructor
  · intro covers
    refine ⟨subset, fun row minterm => ?_⟩
    obtain ⟨i, inImage, m, found, coversRow⟩ := covers row minterm
    obtain ⟨other, chosen, same⟩ := Finset.mem_image.mp inImage
    have position := ((getElem?_eq_some_iff_idxOf nodup).mp found).2
    have equal : other = m :=
      (List.idxOf_inj (List.mem_toFinset.mp (subset chosen))).mp (same.trans position.symm)
    exact ⟨m, equal ▸ chosen, coversRow⟩
  · intro isCover row minterm
    obtain ⟨m, chosen, coversRow⟩ := isCover.covers row minterm
    have member := List.mem_toFinset.mp (subset chosen)
    exact ⟨_, Finset.mem_image_of_mem _ chosen, m, (getElem?_eq_some_iff_idxOf nodup).mpr ⟨member, rfl⟩, coversRow⟩

theorem isCover_chosenAt (nodup : implicants.Nodup) {positions : Finset Nat}
    (covers : Covers implicants minterms positions) : IsCover implicants minterms (chosenAt implicants positions) := by
  refine ⟨chosenAt_subset positions, fun row minterm => ?_⟩
  obtain ⟨i, chosen, m, found, coversRow⟩ := covers row minterm
  obtain ⟨member, rfl⟩ := (getElem?_eq_some_iff_idxOf nodup).mp found
  exact ⟨m, Finset.mem_filter.mpr ⟨List.mem_toFinset.mpr member, chosen⟩, coversRow⟩

theorem chosenAt_image {s : Finset Implicant} (subset : s ⊆ implicants.toFinset) :
    chosenAt implicants (s.image implicants.idxOf) = s := by
  ext m
  unfold chosenAt
  rw [Finset.mem_filter, Finset.mem_image]
  constructor
  · intro facts
    obtain ⟨_, other, chosen, same⟩ := facts
    exact (List.idxOf_inj (List.mem_toFinset.mp (subset chosen))).mp same ▸ chosen
  · intro chosen
    exact ⟨subset chosen, m, chosen, rfl⟩

/-- A smallest set of positions holds no position beyond the list. -/
theorem image_chosenAt_of_smallest (nodup : implicants.Nodup) {positions : Finset Nat}
    (smallest : Smallest (Covers implicants minterms) positions) :
    (chosenAt implicants positions).image implicants.idxOf = positions := by
  apply Finset.eq_of_subset_of_card_le (image_chosenAt_subset positions)
  apply smallest.card_le
  exact (covers_image_iff nodup (chosenAt_subset positions)).mpr (isCover_chosenAt nodup smallest.has)

/-- The smallest covers are the implicants at the smallest covering sets of positions. -/
theorem smallest_isCover_iff (nodup : implicants.Nodup) {s : Finset Implicant} :
    Smallest (IsCover implicants minterms) s ↔
      ∃ positions, Smallest (Covers implicants minterms) positions ∧ chosenAt implicants positions = s := by
  constructor
  · intro smallest
    have subset := smallest.has.subset
    refine ⟨s.image implicants.idxOf, ⟨(covers_image_iff nodup subset).mpr smallest.has, fun t covers => ?_⟩,
      chosenAt_image subset⟩
    calc (s.image implicants.idxOf).card = s.card := card_image_idxOf subset
      _ ≤ (chosenAt implicants t).card := smallest.card_le _ (isCover_chosenAt nodup covers)
      _ = ((chosenAt implicants t).image implicants.idxOf).card := (card_image_idxOf (chosenAt_subset t)).symm
      _ ≤ t.card := Finset.card_le_card (image_chosenAt_subset t)
  · intro found
    obtain ⟨positions, smallest, rfl⟩ := found
    have card : (chosenAt implicants positions).card = positions.card := by
      rw [← card_image_idxOf (chosenAt_subset positions), image_chosenAt_of_smallest nodup smallest]
    refine ⟨isCover_chosenAt nodup smallest.has, fun t isCover => ?_⟩
    rw [card, ← card_image_idxOf isCover.subset]
    exact smallest.card_le _ ((covers_image_iff nodup isCover.subset).mpr isCover)

end Positions

end Cover

namespace Minimization

section Forms

variable {primes : List Implicant} {minterms : List Row}

theorem formsOf_eq (covers : List (List Nat)) :
    formsOf primes covers = covers.map fun cover => ⟨cover.filterMap (primes[·]?)⟩ := by
  unfold formsOf
  simp only [List.getElem?_toArray]

theorem toFinset_products (nodup : primes.Nodup) (cover : List Nat) :
    (cover.filterMap (primes[·]?)).toFinset = Cover.chosenAt primes cover.toFinset := by
  ext m
  unfold Cover.chosenAt
  rw [List.mem_toFinset, List.mem_filterMap, Finset.mem_filter, List.mem_toFinset, List.mem_toFinset]
  simp only [Cover.getElem?_eq_some_iff_idxOf nodup]
  constructor
  · intro found
    obtain ⟨i, inCover, member, rfl⟩ := found
    exact ⟨member, inCover⟩
  · intro facts
    exact ⟨_, facts.2, facts.1, rfl⟩

theorem nodup_products (nodup : primes.Nodup) {cover : List Nat} (distinct : cover.Nodup) :
    (cover.filterMap (primes[·]?)).Nodup := by
  apply distinct.filterMap
  intro i j m first second
  have firstAt := ((Cover.getElem?_eq_some_iff_idxOf nodup).mp first).2
  have secondAt := ((Cover.getElem?_eq_some_iff_idxOf nodup).mp second).2
  exact firstAt.symm.trans secondAt

/-- The forms are the smallest covers, as sets of products. -/
theorem mem_sets_forms_iff (nodup : primes.Nodup) {s : Finset Implicant} :
    s ∈ (formsOf primes (Cover.minimumCovers primes minterms)).map (·.products.toFinset) ↔
      Smallest (Cover.IsCover primes minterms) s := by
  rw [Cover.smallest_isCover_iff nodup, formsOf_eq, List.map_map, List.mem_map]
  simp only [Function.comp_apply, toFinset_products nodup, ← Cover.exists_mem_minimumCovers_iff]
  constructor
  · intro found
    obtain ⟨cover, member, rfl⟩ := found
    exact ⟨_, ⟨cover, member, rfl⟩, rfl⟩
  · intro found
    obtain ⟨_, ⟨cover, member, rfl⟩, rfl⟩ := found
    exact ⟨cover, member, rfl⟩

theorem nodup_sets_forms (nodup : primes.Nodup) :
    ((formsOf primes (Cover.minimumCovers primes minterms)).map (·.products.toFinset)).Nodup := by
  rw [formsOf_eq, List.map_map]
  simp only [Function.comp_def, toFinset_products nodup]
  have sets : ((Cover.minimumCovers primes minterms).map List.toFinset).Nodup :=
    Cover.nodup_map_toFinset_minimumCovers
  have split : (Cover.minimumCovers primes minterms).map (fun cover => Cover.chosenAt primes cover.toFinset) =
      ((Cover.minimumCovers primes minterms).map List.toFinset).map (Cover.chosenAt primes) := by
    rw [List.map_map]
    rfl
  rw [split]
  -- The positions can be read off the chosen implicants, as long as there are none beyond the list.
  refine List.Nodup.map_on ?_ sets
  intro first inFirst second inSecond same
  have firstSmallest := Cover.exists_mem_minimumCovers_iff.mp (List.mem_map.mp inFirst)
  have secondSmallest := Cover.exists_mem_minimumCovers_iff.mp (List.mem_map.mp inSecond)
  rw [← Cover.image_chosenAt_of_smallest nodup firstSmallest, same,
    Cover.image_chosenAt_of_smallest nodup secondSmallest]

theorem nodup_of_mem_forms (nodup : primes.Nodup) {form : MinimalForm}
    (member : form ∈ formsOf primes (Cover.minimumCovers primes minterms)) : form.products.Nodup := by
  rw [formsOf_eq] at member
  obtain ⟨cover, known, rfl⟩ := List.mem_map.mp member
  exact nodup_products nodup (Cover.nodup_of_mem_minimumCovers known)

theorem forms_of_no_minterms : formsOf primes (Cover.minimumCovers primes []) = [⟨[]⟩] := by
  have essentials : Cover.essentials (Cover.coverers primes) [] = [] :=
    List.eq_nil_iff_forall_not_mem.mpr fun i member => by simpa using Cover.mem_essentials.mp member
  have clauses : Cover.openClauses primes [] = [] :=
    List.eq_nil_iff_forall_not_mem.mpr fun clause member => by simpa using Cover.mem_openClauses.mp member
  unfold Cover.minimumCovers
  rw [essentials, clauses]
  show formsOf primes ((Cover.smallest [∅]).map _) = _
  rw [Cover.smallest_singleton_empty]
  rfl

end Forms

variable {width : Nat} {minterms dontCares : RowSet}

theorem forms_ne_nil (valid : Valid width minterms dontCares) : (outcomeOf width minterms dontCares).forms ≠ [] := by
  have covers : Cover.minimumCovers (primesOf width minterms dontCares) minterms.toList ≠ [] :=
    Cover.minimumCovers_ne_nil fun row minterm => coverers_primesOf_ne_nil valid minterm
  unfold outcomeOf
  dsimp only
  rw [formsOf_eq]
  exact mt List.map_eq_nil_iff.mp covers

/-- The products of a form are prime implicants, and together they cover the minterms. -/
theorem isCover_of_mem_forms (valid : Valid width minterms dontCares) {form : MinimalForm}
    (member : form ∈ (outcomeOf width minterms dontCares).forms) :
    Smallest (Cover.IsCover (primesOf width minterms dontCares) minterms.toList) form.products.toFinset :=
  (mem_sets_forms_iff (nodup_primesOf valid)).mp (List.mem_map_of_mem member)

theorem isPrime_of_mem_products (valid : Valid width minterms dontCares) {form : MinimalForm}
    (member : form ∈ (outcomeOf width minterms dontCares).forms) {m : Implicant} (product : m ∈ form.products) :
    ∃ p : Pattern, p.IsPrime minterms dontCares width ∧ m = .complete dontCares p := by
  have subset := (isCover_of_mem_forms valid member).has.subset
  exact (mem_primesOf valid).mp (List.mem_toFinset.mp (subset (List.mem_toFinset.mpr product)))

theorem exists_product_of_minterm (valid : Valid width minterms dontCares) {form : MinimalForm}
    (member : form ∈ (outcomeOf width minterms dontCares).forms) {row : Row} (minterm : row ∈ minterms) :
    ∃ m ∈ form.products, m.pattern.Matches row := by
  obtain ⟨m, chosen, coversRow⟩ := (isCover_of_mem_forms valid member).has.covers row minterm
  have product := List.mem_toFinset.mp chosen
  obtain ⟨p, _, rfl⟩ := isPrime_of_mem_products valid member product
  exact ⟨_, product, Implicant.covers_complete.mp coversRow⟩

section FourPrimes

/-- The prime implicants of a function of four variables. `-100` and `1-1-` are essential, and leave row 8
to `10--` or to `1--0`. -/
def fourPrimes : List Implicant :=
  [[.absent, .asserted, .negated, .negated], [.asserted, .absent, .asserted, .absent],
    [.asserted, .negated, .absent, .absent], [.asserted, .absent, .absent, .negated]].map (.complete (.ofList [9, 14]))

theorem mem_primesOf_iff_mem_fourPrimes {m : Implicant} :
    m ∈ primesOf 4 (.ofList [4, 8, 10, 11, 12, 15]) (.ofList [9, 14]) ↔ m ∈ fourPrimes := by
  have valid : Valid 4 (.ofList [4, 8, 10, 11, 12, 15]) (.ofList [9, 14]) := by decide
  rw [mem_primesOf valid]
  constructor
  · intro found
    obtain ⟨p, prime, rfl⟩ := found
    obtain ⟨a, rest, rfl⟩ := List.exists_of_length_succ p prime.length_eq
    obtain ⟨b, c, d, rfl⟩ := List.length_eq_three.mp (Nat.succ.inj prime.length_eq)
    revert prime
    -- There are 81 patterns over four variables, and each is decided by the rows.
    cases a <;> cases b <;> cases c <;> cases d <;> decide
  · intro member
    obtain ⟨p, listed, rfl⟩ := List.mem_map.mp member
    refine ⟨p, ?_, rfl⟩
    revert p
    decide

/-- A smallest cover leaves out one of the two that are not essential, and nothing else. -/
theorem smallest_isCover_fourPrimes_iff {s : Finset Implicant} :
    Smallest (Cover.IsCover fourPrimes [4, 8, 10, 11, 12, 15]) s ↔
      s = (fourPrimes.eraseIdx 2).toFinset ∨ s = (fourPrimes.eraseIdx 3).toFinset := by
  have covers : ∀ t ∈ fourPrimes.toFinset.powerset, Cover.IsCover fourPrimes [4, 8, 10, 11, 12, 15] t →
      3 ≤ t.card ∧ (t.card ≤ 3 → t = (fourPrimes.eraseIdx 2).toFinset ∨ t = (fourPrimes.eraseIdx 3).toFinset) := by
    decide +kernel
  have known : ∀ t, Cover.IsCover fourPrimes [4, 8, 10, 11, 12, 15] t → t ∈ fourPrimes.toFinset.powerset :=
    fun t isCover => Finset.mem_powerset.mpr isCover.subset
  have least : ∀ t, Cover.IsCover fourPrimes [4, 8, 10, 11, 12, 15] t → 3 ≤ t.card :=
    fun t isCover => (covers t (known t isCover) isCover).1
  have first : Cover.IsCover fourPrimes [4, 8, 10, 11, 12, 15] (fourPrimes.eraseIdx 2).toFinset := by decide
  have second : Cover.IsCover fourPrimes [4, 8, 10, 11, 12, 15] (fourPrimes.eraseIdx 3).toFinset := by decide
  constructor
  · intro smallest
    exact (covers s (known s smallest.has) smallest.has).2 (smallest.card_le _ first)
  · rintro (rfl | rfl)
    · exact ⟨first, least⟩
    · exact ⟨second, least⟩

end FourPrimes

/-- The forms of a minimization without a limit are the smallest covers of the minterms by prime
implicants, each once and without repeated products. The prime implicants have different
patterns, so a product is known by its pattern. -/
theorem forms_exact (minterms dontCares : RowSet) (vars : List String) (settings : Settings)
    (valid : Valid vars.length minterms dontCares) (noLimit : settings.coverLimit = none) :
    ∃ m primes forms, (run minterms dontCares vars settings).outcome = .ok m ∧
      m.primes = .ok primes ∧ m.forms = .ok forms ∧ (primes.map (·.pattern)).Nodup ∧
      (∀ s, s ∈ forms.map (·.products.toFinset) ↔ Smallest (Cover.IsCover primes minterms.toList) s) ∧
      (forms.map (·.products.toFinset)).Nodup ∧ (∀ form ∈ forms, form.products.Nodup) ∧
      (minterms = ∅ → forms = [⟨[]⟩]) := by
  have nodup := nodup_primesOf valid
  refine ⟨_, primesOf vars.length minterms dontCares, (outcomeOf vars.length minterms dontCares).forms,
    outcome_run_of_no_limit valid noLimit, rfl, rfl, nodup_patterns_primesOf valid,
    fun s => mem_sets_forms_iff nodup, nodup_sets_forms nodup, fun form => nodup_of_mem_forms nodup, ?_⟩
  intro noMinterms
  subst noMinterms
  exact forms_of_no_minterms

/-- A function with two minimal forms, each of which leaves out one of the two prime implicants that are
not essential, and a function that is never true, with two rows of no interest. -/
theorem forms_exact_two_forms :
    (∃ m primes forms,
      (run (.ofList [4, 8, 10, 11, 12, 15]) (.ofList [9, 14]) ["A", "B", "C", "D"] {}).outcome = .ok m ∧
      m.primes = .ok primes ∧ m.forms = .ok forms ∧ (∀ prime, prime ∈ primes ↔ prime ∈ fourPrimes) ∧
      (∀ s, s ∈ forms.map (·.products.toFinset) ↔
        s = (fourPrimes.eraseIdx 2).toFinset ∨ s = (fourPrimes.eraseIdx 3).toFinset) ∧ forms.length = 2) ∧
    ∃ m, (run ∅ (.ofList [1, 2]) ["A", "B"] {}).outcome = .ok m ∧ m.forms = .ok [⟨[]⟩] := by
  constructor
  · have valid : Valid ["A", "B", "C", "D"].length (.ofList [4, 8, 10, 11, 12, 15]) (.ofList [9, 14]) := by decide
    obtain ⟨m, primes, forms, done, reported, found, _, exact, distinct, _, _⟩ :=
      forms_exact (.ofList [4, 8, 10, 11, 12, 15]) (.ofList [9, 14]) ["A", "B", "C", "D"] {} valid rfl
    cases (outcome_run_of_no_limit valid rfl).symm.trans done
    cases reported
    have covers : Cover.IsCover (primesOf 4 (.ofList [4, 8, 10, 11, 12, 15]) (.ofList [9, 14])) [4, 8, 10, 11, 12, 15] =
        Cover.IsCover fourPrimes [4, 8, 10, 11, 12, 15] := by
      funext s
      rw [Cover.isCover_iff, Cover.isCover_iff, List.toFinset.ext fun _ => mem_primesOf_iff_mem_fourPrimes]
    have sets : ∀ s, s ∈ forms.map (·.products.toFinset) ↔
        s = (fourPrimes.eraseIdx 2).toFinset ∨ s = (fourPrimes.eraseIdx 3).toFinset := fun s =>
      (exact s).trans ((iff_of_eq (congrArg (Smallest · s) covers)).trans smallest_isCover_fourPrimes_iff)
    refine ⟨_, _, forms, done, rfl, found, fun _ => mem_primesOf_iff_mem_fourPrimes, sets, ?_⟩
    have both : (forms.map (·.products.toFinset)).toFinset =
        {(fourPrimes.eraseIdx 2).toFinset, (fourPrimes.eraseIdx 3).toFinset} := by
      ext s
      rw [List.mem_toFinset, sets, Finset.mem_insert, Finset.mem_singleton]
    have different : (fourPrimes.eraseIdx 2).toFinset ≠ (fourPrimes.eraseIdx 3).toFinset := by decide
    calc forms.length = (forms.map (·.products.toFinset)).length := (List.length_map _).symm
      _ = (forms.map (·.products.toFinset)).toFinset.card := (List.toFinset_card_of_nodup distinct).symm
      _ = 2 := both ▸ Finset.card_pair different
  · obtain ⟨m, _, forms, done, _, found, _, _, _, _, empty⟩ :=
      forms_exact ∅ (.ofList [1, 2]) ["A", "B"] {} (by decide) rfl
    exact ⟨m, done, empty rfl ▸ found⟩

section SumsOfProducts

/-- A sum of products for the function, by the patterns of its terms: each minterm matches one
of them, and nothing else does but rows of no interest. -/
structure IsSum (width : Nat) (minterms dontCares : RowSet) (sum : List Pattern) : Prop where
  length_eq : ∀ p ∈ sum, p.length = width
  implicant : ∀ p ∈ sum, p.IsImplicant minterms dontCares
  covers : ∀ row ∈ minterms, ∃ p ∈ sum, p.Matches row

theorem isSum_iff {sum : List Pattern} :
    IsSum width minterms dontCares sum ↔ (∀ p ∈ sum, p.length = width) ∧
      (∀ p ∈ sum, p.IsImplicant minterms dontCares) ∧ ∀ row ∈ minterms.toList, ∃ p ∈ sum, p.Matches row := by
  constructor
  · intro isSum
    exact ⟨isSum.length_eq, isSum.implicant, isSum.covers⟩
  · intro facts
    exact ⟨facts.1, facts.2.1, facts.2.2⟩

instance (sum : List Pattern) : Decidable (IsSum width minterms dontCares sum) :=
  decidable_of_iff _ isSum_iff.symm

/-- Each term that matches a minterm lies in a prime one, so prime implicants cover the same
minterms with no more terms. -/
theorem exists_primes_of_sum (valid : Valid width minterms dontCares) {sum : List Pattern}
    (length_eq : ∀ p ∈ sum, p.length = width) (implicant : ∀ p ∈ sum, p.IsImplicant minterms dontCares) :
    ∃ s : Finset Implicant, s.card ≤ sum.length ∧ s ⊆ (primesOf width minterms dontCares).toFinset ∧
      ∀ row ∈ minterms, ∀ p ∈ sum, p.Matches row → ∃ m ∈ s, m.covers row = true := by
  induction sum with
  | nil => exact ⟨∅, Nat.le_refl 0, Finset.empty_subset _, fun _ _ _ member => absurd member List.not_mem_nil⟩
  | cons p sum ih =>
    obtain ⟨lengthHead, lengthTail⟩ := List.forall_mem_cons.mp length_eq
    obtain ⟨implicantHead, implicantTail⟩ := List.forall_mem_cons.mp implicant
    obtain ⟨s, card, subset, covers⟩ := ih lengthTail implicantTail
    by_cases useful : ∃ row ∈ minterms, p.Matches row
    · obtain ⟨q, prime, contains⟩ := Pattern.exists_isPrime lengthHead implicantHead useful
      have found : Implicant.complete dontCares q ∈ primesOf width minterms dontCares :=
        (mem_primesOf valid).mpr ⟨q, prime, rfl⟩
      refine ⟨insert (.complete dontCares q) s, ?_, ?_, ?_⟩
      · have bound := Finset.card_insert_le (.complete dontCares q) s
        rw [List.length_cons]
        omega
      · exact Finset.insert_subset (List.mem_toFinset.mpr found) subset
      · intro row minterm r member matched
        rcases List.mem_cons.mp member with rfl | later
        · exact ⟨_, Finset.mem_insert_self _ s, Implicant.covers_complete.mpr (contains row matched)⟩
        · obtain ⟨m, chosen, coversRow⟩ := covers row minterm r later matched
          exact ⟨m, Finset.mem_insert_of_mem chosen, coversRow⟩
    -- A term without a minterm may match rows of no interest only, and no prime has to replace it.
    · refine ⟨s, Nat.le_succ_of_le card, subset, fun row minterm r member matched => ?_⟩
      rcases List.mem_cons.mp member with rfl | later
      · exact absurd ⟨row, minterm, matched⟩ useful
      · exact covers row minterm r later matched

/-- There is a minimal form, and no sum of products for the function has fewer terms than any of them.
Each of them is such a sum. -/
theorem forms_fewest_terms (minterms dontCares : RowSet) (vars : List String) (settings : Settings)
    (valid : Valid vars.length minterms dontCares) (noLimit : settings.coverLimit = none) :
    ∃ m forms, (run minterms dontCares vars settings).outcome = .ok m ∧ m.forms = .ok forms ∧ forms ≠ [] ∧
      ∀ form ∈ forms, IsSum vars.length minterms dontCares form.patterns ∧
        ∀ sum, IsSum vars.length minterms dontCares sum → form.size ≤ sum.length := by
  refine ⟨_, (outcomeOf vars.length minterms dontCares).forms, outcome_run_of_no_limit valid noLimit, rfl,
    forms_ne_nil valid, ?_⟩
  intro form member
  have patterns : ∀ p ∈ form.patterns, p.IsPrime minterms dontCares vars.length := by
    intro p inForm
    obtain ⟨m, product, rfl⟩ := List.mem_map.mp inForm
    obtain ⟨p, prime, rfl⟩ := isPrime_of_mem_products valid member product
    exact prime
  constructor
  · refine ⟨fun p inForm => (patterns p inForm).length_eq, fun p inForm => (patterns p inForm).implicant, ?_⟩
    intro row minterm
    obtain ⟨m, product, matched⟩ := exists_product_of_minterm valid member minterm
    exact ⟨m.pattern, List.mem_map_of_mem product, matched⟩
  · intro sum isSum
    obtain ⟨s, card, subset, covers⟩ := exists_primes_of_sum valid isSum.length_eq isSum.implicant
    have isCover : Cover.IsCover (primesOf vars.length minterms dontCares) minterms.toList s := by
      refine ⟨subset, fun row minterm => ?_⟩
      obtain ⟨p, inSum, matched⟩ := isSum.covers row minterm
      exact covers row minterm p inSum matched
    have distinct : form.products.Nodup := nodup_of_mem_forms (nodup_primesOf valid) member
    calc form.size = form.products.toFinset.card := (List.toFinset_card_of_nodup distinct).symm
      _ ≤ s.card := (isCover_of_mem_forms valid member).card_le s isCover
      _ ≤ sum.length := card

/-- A function without essential implicants, for which three terms are enough. -/
theorem forms_fewest_terms_cyclic :
    ∃ m forms, (run (.ofList [0, 1, 2, 5, 6, 7]) ∅ ["A", "B", "C"] {}).outcome = .ok m ∧
      m.forms = .ok forms ∧ forms ≠ [] ∧ ∀ form ∈ forms, form.size ≤ 3 := by
  obtain ⟨m, forms, done, found, nonempty, fewest⟩ :=
    forms_fewest_terms (.ofList [0, 1, 2, 5, 6, 7]) ∅ ["A", "B", "C"] {} (by decide) rfl
  refine ⟨m, forms, done, found, nonempty, fun form member => ?_⟩
  have sum : IsSum 3 (.ofList [0, 1, 2, 5, 6, 7]) ∅
      [[.negated, .negated, .absent], [.absent, .asserted, .negated], [.asserted, .absent, .asserted]] := by
    decide
  exact (fewest form member).2 _ sum

end SumsOfProducts

end Minimization

end TwoLevel
