import Mathlib.Data.List.Forall2
import TwoLevel.Cover
import TwoLevel.Proofs.Distinct
import TwoLevel.Proofs.SmallestSets

/-! Multiplying out clauses. The products are the sets that one choice of a member from each
clause yields, and the smallest of them are the smallest sets that meet every clause. -/

set_option autoImplicit false

namespace TwoLevel

namespace IndexSet

def toFinset (s : IndexSet) : Finset Nat := s.toList.toFinset

@[simp] theorem mem_toFinset {i : Nat} {s : IndexSet} : i ∈ s.toFinset ↔ i ∈ s := by
  rw [toFinset, List.mem_toFinset, mem_toList]

theorem pairwise_toList (s : IndexSet) : s.toList.Pairwise (· < ·) := by
  rw [toList_eq]
  exact List.pairwise_lt_range.filter _

theorem nodup_toList (s : IndexSet) : s.toList.Nodup := s.pairwise_toList.imp Nat.ne_of_lt

@[simp] theorem toList_empty : (∅ : IndexSet).toList = [] :=
  List.eq_nil_iff_forall_not_mem.mpr fun i member => not_mem_empty i (mem_toList.mp member)

theorem card_toFinset (s : IndexSet) : s.toFinset.card = s.toList.length :=
  List.toFinset_card_of_nodup s.nodup_toList

theorem toFinset_injective : Function.Injective toFinset := by
  intro s t same
  apply ext_of_mem
  intro i
  rw [← mem_toFinset, same, mem_toFinset]

@[simp] theorem mem_foldl_insert {i : Nat} {s : IndexSet} {l : List Nat} :
    i ∈ l.foldl insert s ↔ i ∈ s ∨ i ∈ l := by
  induction l generalizing s with
  | nil => simp
  | cons j l ih =>
    rw [List.foldl_cons, ih, mem_insert, List.mem_cons, or_assoc, or_left_comm]

@[simp] theorem mem_ofList {i : Nat} {l : List Nat} : i ∈ ofList l ↔ i ∈ l := by
  rw [ofList, mem_foldl_insert]
  exact or_iff_right (not_mem_empty i)

theorem toFinset_ofList (indexes : List Nat) : (ofList indexes).toFinset = indexes.toFinset := by
  ext i
  rw [mem_toFinset, mem_ofList, List.mem_toFinset]

theorem toFinset_insert (s : IndexSet) (i : Nat) : (s.insert i).toFinset = Insert.insert i s.toFinset := by
  ext j
  rw [mem_toFinset, mem_insert, Finset.mem_insert, mem_toFinset]

end IndexSet

namespace Cover

/-- The products with one implicant of a clause added in every way. -/
def extend (products : List IndexSet) (clause : IndexSet) : List IndexSet :=
  (Distinct.empty.addAll (products.flatMap fun product => clause.toList.map product.insert) : Products).toList

/-- All products of a list of clauses. -/
def productsOf (clauses : List IndexSet) : List IndexSet := clauses.foldl extend [∅]

/-- The set has a member in every clause. -/
def Meets (clauses : List IndexSet) (s : Finset Nat) : Prop := ∀ clause ∈ clauses, ∃ i ∈ clause, i ∈ s

theorem mem_extend {products : List IndexSet} {clause s : IndexSet} :
    s ∈ extend products clause ↔ ∃ product ∈ products, ∃ i ∈ clause, s = product.insert i := by
  show s ∈ distinctOn id _ ↔ _
  rw [mem_distinctOn_id, List.mem_flatMap]
  simp only [List.mem_map, IndexSet.mem_toList, eq_comm]

theorem nodup_extend (products : List IndexSet) (clause : IndexSet) : (extend products clause).Nodup :=
  nodup_distinctOn_id _

theorem nodup_foldl_extend {products : List IndexSet} (nodup : products.Nodup) (clauses : List IndexSet) :
    (clauses.foldl extend products).Nodup := by
  induction clauses generalizing products with
  | nil => exact nodup
  | cons clause clauses ih => exact ih (nodup_extend products clause)

theorem nodup_productsOf (clauses : List IndexSet) : (productsOf clauses).Nodup :=
  nodup_foldl_extend (List.nodup_singleton _) clauses

section Distribution

theorem extendFrom_empty (limit : Option Nat) (products : List IndexSet) (clause : IndexSet) :
    extendFrom limit clause.toList .empty products =
      match exceeded? limit (extend products clause).length with
      | some bound => .error (.coverLimit bound)
      | none => .ok (extend products clause) := by
  have within : exceeded? limit (Distinct.empty : Products).size = none := by
    apply Option.filter_eq_none_iff.mpr
    intro bound _
    simp [Distinct.size, Distinct.empty]
  rw [extendFrom_eq products within, Distinct.size_eq_length]
  rfl

/-- Within the limit, the clauses are multiplied out as without one. -/
theorem distribute_cases (limit : Option Nat) (products clauses : List IndexSet) :
    distribute limit products clauses = .ok (clauses.foldl extend products) ∨
      ∃ bound, limit = some bound ∧ distribute limit products clauses = .error (.coverLimit bound) := by
  induction clauses generalizing products with
  | nil => exact .inl rfl
  | cons clause clauses ih =>
    unfold distribute
    rw [extendFrom_empty]
    cases found : exceeded? limit (extend products clause).length with
    | none => exact ih (extend products clause)
    | some bound => exact .inr ⟨bound, (Option.filter_eq_some_iff.mp found).1, rfl⟩

end Distribution

section Choices

theorem mem_foldl_extend {products clauses : List IndexSet} {s : IndexSet} :
    s ∈ clauses.foldl extend products ↔
      ∃ product ∈ products, ∃ choice, List.Forall₂ (· ∈ ·) choice clauses ∧ s = choice.foldl .insert product := by
  -- The first clause changes the products that the others are multiplied with.
  induction clauses generalizing products with
  | nil => simp
  | cons clause clauses ih =>
    rw [List.foldl_cons, ih]
    constructor
    · rintro ⟨extended, member, choice, chosen, rfl⟩
      obtain ⟨product, known, i, inClause, rfl⟩ := mem_extend.mp member
      exact ⟨product, known, i :: choice, .cons inClause chosen, rfl⟩
    · rintro ⟨product, known, _ | ⟨i, choice⟩, chosen, rfl⟩
      · cases chosen
      · obtain ⟨inClause, rest⟩ := List.forall₂_cons.mp chosen
        exact ⟨_, mem_extend.mpr ⟨product, known, i, inClause, rfl⟩, choice, rest, rfl⟩

/-- The products are the sets of one choice from each clause. -/
theorem mem_productsOf {clauses : List IndexSet} {s : IndexSet} :
    s ∈ productsOf clauses ↔ ∃ choice, List.Forall₂ (· ∈ ·) choice clauses ∧ s = .ofList choice := by
  unfold productsOf
  rw [mem_foldl_extend]
  simp only [List.mem_singleton, exists_eq_left]
  rfl

theorem meets_of_mem_productsOf {clauses : List IndexSet} {s : IndexSet} (member : s ∈ productsOf clauses) :
    Meets clauses s.toFinset := by
  obtain ⟨choice, chosen, rfl⟩ := mem_productsOf.mp member
  have inClause : ∀ clause ∈ clauses, ∃ i ∈ clause, i ∈ choice := by
    clear member
    induction chosen with
    | nil => simp
    | cons first _ ih =>
      refine List.forall_mem_cons.mpr ⟨⟨_, first, List.mem_cons_self⟩, fun clause later => ?_⟩
      obtain ⟨i, found, inRest⟩ := ih clause later
      exact ⟨i, found, List.mem_cons_of_mem _ inRest⟩
  intro clause known
  obtain ⟨i, found, inChoice⟩ := inClause clause known
  exact ⟨i, found, IndexSet.mem_toFinset.mpr (IndexSet.mem_ofList.mpr inChoice)⟩

theorem exists_product_of_meets {clauses : List IndexSet} {t : Finset Nat} (meets : Meets clauses t) :
    ∃ s ∈ productsOf clauses, s.toFinset ⊆ t := by
  have choice : ∃ choice, List.Forall₂ (· ∈ ·) choice clauses ∧ ∀ i ∈ choice, i ∈ t := by
    induction clauses with
    | nil => exact ⟨[], .nil, by simp⟩
    | cons clause clauses ih =>
      obtain ⟨i, inClause, inSet⟩ := meets clause List.mem_cons_self
      obtain ⟨choice, chosen, subset⟩ := ih fun other member => meets other (List.mem_cons_of_mem _ member)
      exact ⟨i :: choice, .cons inClause chosen, List.forall_mem_cons.mpr ⟨inSet, subset⟩⟩
  obtain ⟨choice, chosen, subset⟩ := choice
  refine ⟨.ofList choice, mem_productsOf.mpr ⟨choice, chosen, rfl⟩, fun i member => ?_⟩
  exact subset i (IndexSet.mem_ofList.mp (IndexSet.mem_toFinset.mp member))

end Choices

section Smallest

theorem mem_smallest {products : List IndexSet} {c : List Nat} :
    c ∈ smallest products ↔
      ∃ s ∈ products, c = s.toList ∧ ∀ t ∈ products, s.toList.length ≤ t.toList.length := by
  unfold smallest
  dsimp only
  split
  · rename_i least
    have empty : products = [] := by simpa using least
    simp [empty]
  · rename_i size least
    obtain ⟨found, bound⟩ := List.min?_eq_some_iff.mp least
    simp only [List.mem_map, exists_exists_and_eq_and, forall_exists_index, and_imp,
      forall_apply_eq_imp_iff₂] at found bound
    simp only [List.mem_mergeSort, List.mem_filter, List.mem_map, beq_iff_eq]
    constructor
    · rintro ⟨⟨s, member, rfl⟩, rfl⟩
      exact ⟨s, member, rfl, bound⟩
    · rintro ⟨s, member, rfl, small⟩
      obtain ⟨t, known, rfl⟩ := found
      exact ⟨⟨s, member, rfl⟩, Nat.le_antisymm (small t known) (bound s member)⟩

theorem nodup_smallest {products : List IndexSet} (nodup : products.Nodup) : (smallest products).Nodup := by
  have injective : Function.Injective IndexSet.toList := fun s t same =>
    IndexSet.toFinset_injective (congrArg List.toFinset same)
  unfold smallest
  dsimp only
  split
  · exact .nil
  · exact ((List.mergeSort_perm _ _).nodup_iff).mpr ((nodup.map injective).filter _)

theorem smallest_singleton_empty : smallest [∅] = [[]] := by simp [smallest]

/-- The smallest products are the smallest sets that meet every clause. -/
theorem exists_mem_smallest_iff {clauses : List IndexSet} {t : Finset Nat} :
    (∃ c ∈ smallest (productsOf clauses), c.toFinset = t) ↔ Smallest (Meets clauses) t := by
  have implies : ∀ t, (∃ s ∈ productsOf clauses, s.toFinset = t) → Meets clauses t := by
    rintro _ ⟨s, member, rfl⟩
    exact meets_of_mem_productsOf member
  have contains : ∀ t, Meets clauses t → ∃ u ⊆ t, ∃ s ∈ productsOf clauses, s.toFinset = u := by
    intro t meets
    obtain ⟨s, member, subset⟩ := exists_product_of_meets meets
    exact ⟨_, subset, s, member, rfl⟩
  -- Not every product is minimal, but a smallest one is as small as any set that meets the clauses.
  rw [Smallest.iff_of_refines implies contains]
  constructor
  · rintro ⟨c, member, rfl⟩
    obtain ⟨s, known, rfl, small⟩ := mem_smallest.mp member
    refine ⟨⟨s, known, rfl⟩, ?_⟩
    rintro _ ⟨t, other, rfl⟩
    have bound := small t other
    rwa [← IndexSet.card_toFinset, ← IndexSet.card_toFinset] at bound
  · rintro ⟨⟨s, known, rfl⟩, small⟩
    refine ⟨s.toList, mem_smallest.mpr ⟨s, known, rfl, fun t other => ?_⟩, rfl⟩
    rw [← IndexSet.card_toFinset, ← IndexSet.card_toFinset]
    exact small _ ⟨t, other, rfl⟩

end Smallest

end Cover

end TwoLevel
