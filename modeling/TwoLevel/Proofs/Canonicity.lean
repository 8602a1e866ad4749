import Mathlib.Data.List.Perm.Basic
import TwoLevel.Proofs.Cubes
import TwoLevel.Proofs.ExprMinimization

/-! The minimal forms of an expression depend only on its function. They are the smallest covers
of the function by its prime cubes, each listed once, whatever variables the expression mentions
without need. A form mentions exactly the variables on which the function depends. -/

set_option autoImplicit false

namespace TwoLevel

/-- Prime cubes, one of which allows each assignment that makes the function true. -/
structure IsPrimeCover (f : (String → Bool) → Bool) (s : Finset Cube) : Prop where
  prime : ∀ c ∈ s, c.IsPrime f
  covers : ∀ assign, f assign = true → ∃ c ∈ s, c.Allows assign

/-- The covers are the smallest covers by prime cubes, each once and without repeated cubes. -/
structure ListsSmallestCovers (f : (String → Bool) → Bool) (covers : List (List Cube)) : Prop where
  nodup : ∀ cover ∈ covers, cover.Nodup
  distinct : (covers.map List.toFinset).Nodup
  mem_iff : ∀ s, s ∈ covers.map List.toFinset ↔ Smallest (IsPrimeCover f) s

section Constant

variable {f : (String → Bool) → Bool} {b : Bool}

theorem Cube.isPrime_iff_of_constant (constant : ∀ assign, f assign = b) {c : Cube} :
    c.IsPrime f ↔ b = true ∧ c = [] := by
  constructor
  · intro prime
    obtain ⟨assign, allowed⟩ := Cube.exists_allows prime.ascending
    refine ⟨(constant assign).symm.trans (prime.implicant assign allowed), ?_⟩
    apply List.eq_nil_iff_forall_not_mem.mpr
    intro l member
    obtain ⟨other, changed⟩ := prime.dependsOn member
    exact changed ((constant _).trans (constant other).symm)
  · rintro ⟨isTrue, rfl⟩
    exact ⟨.nil, fun assign _ => (constant assign).trans isTrue, fun _ member => absurd member List.not_mem_nil⟩

/-- A constant function has one cover, which is empty or has the cube without literals. -/
theorem isPrimeCover_iff_of_constant (constant : ∀ assign, f assign = b) {s : Finset Cube} :
    IsPrimeCover f s ↔ s = if b then {[]} else ∅ := by
  constructor
  · intro cover
    ext c
    have prime := cover.prime c
    rw [Cube.isPrime_iff_of_constant constant] at prime
    cases b with
    | false => simpa using fun member => Bool.noConfusion (prime member).1
    | true =>
      obtain ⟨known, member, _⟩ := cover.covers (fun _ => false) (constant _)
      have empty := (Cube.isPrime_iff_of_constant constant).mp (cover.prime known member)
      rw [if_pos rfl, Finset.mem_singleton]
      exact ⟨fun inCover => (prime inCover).2, fun same => same ▸ empty.2 ▸ member⟩
  · rintro rfl
    constructor
    · intro c member
      rw [Cube.isPrime_iff_of_constant constant]
      cases b with
      | false => cases member
      | true => exact ⟨rfl, Finset.mem_singleton.mp member⟩
    · intro assign isTrue
      rw [constant] at isTrue
      rw [if_pos isTrue]
      exact ⟨[], Finset.mem_singleton_self _, fun _ member => absurd member List.not_mem_nil⟩

theorem listsSmallestCovers_of_constant (constant : ∀ assign, f assign = b) :
    ListsSmallestCovers f [if b then [[]] else []] where
  nodup := by
    cases b with
    | false => simp
    | true => simp
  distinct := List.nodup_singleton _
  mem_iff := by
    intro s
    have single : (if b then [[]] else [] : List Cube).toFinset = if b then {[]} else ∅ := by
      cases b <;> rfl
    rw [List.map_singleton, List.mem_singleton, single]
    constructor
    · rintro rfl
      refine ⟨(isPrimeCover_iff_of_constant constant).mpr rfl, fun t other => ?_⟩
      rw [(isPrimeCover_iff_of_constant constant).mp other]
    · intro smallest
      exact (isPrimeCover_iff_of_constant constant).mp smallest.has

end Constant

namespace Expr

variable {e : Expr}

/-- The cube of an implicant over the variables of the expression. -/
def cubeOf (e : Expr) (m : Implicant) : Cube := m.pattern.cube e.vars

/-- The covers that the minimal forms of the expression stand for. -/
def covers (e : Expr) : List (List Cube) :=
  if e.vars.isEmpty then [if e.value fun _ => false then [[]] else []]
  else e.forms.map fun form => form.products.map e.cubeOf

/-- The sum of the products of a cover. -/
def ofCover (cover : List Cube) : Expr := .ofOperands .or (cover.map Cube.term)

theorem smallestSums_eq : e.smallestSums = e.covers.map ofCover := by
  unfold smallestSums covers
  by_cases noVars : e.vars.isEmpty = true
  · rw [if_pos noVars, if_pos noVars]
    cases e.value fun _ => false <;> rfl
  · rw [if_neg noVars, if_neg noVars, List.map_map]
    refine List.map_congr_left fun form _ => ?_
    unfold MinimalForm.sum
    simp only [Pattern.term_eq, Function.comp_apply, ofCover, List.map_map]
    rfl

section Table

variable (hasVars : ¬e.vars.isEmpty = true)

/-- The prime implicants of the table over the variables of the expression. -/
def tablePrimes (e : Expr) : List Implicant :=
  Minimization.primesOf e.vars.length (Table.trueRows e.vars e) ∅

theorem forms_eq : e.forms = Minimization.formsOf e.tablePrimes
    (Cover.minimumCovers e.tablePrimes (Table.trueRows e.vars e).toList) := by
  unfold forms tablePrimes Minimization.outcomeOf
  rfl

theorem sorted_vars : e.vars.Pairwise (· < ·) := (SortedSet.ofList e.occurrences).ascending

theorem nodup_vars : e.vars.Nodup := sorted_vars.imp fun less => Std.ne_of_lt less

include hasVars

theorem exists_pattern_of_mem {m : Implicant} (member : m ∈ e.tablePrimes) :
    ∃ p : Pattern, p.length = e.vars.length ∧ (p.cube e.vars).IsPrime e.function ∧ m = .complete ∅ p := by
  obtain ⟨p, prime, rfl⟩ := (Minimization.mem_primesOf (valid_vars hasVars)).mp member
  have fits := prime.length_eq
  exact ⟨p, fits, (Pattern.isPrime_iff_cube (fun _ => mem_vars.mpr) sorted_vars fits).mp prime, rfl⟩

theorem injOn_cubeOf : Set.InjOn e.cubeOf {m | m ∈ e.tablePrimes} := by
  intro first inFirst second inSecond same
  obtain ⟨p, fits, _, rfl⟩ := exists_pattern_of_mem hasVars inFirst
  obtain ⟨q, fitsOther, _, rfl⟩ := exists_pattern_of_mem hasVars inSecond
  rw [Pattern.cube_injective nodup_vars fits fitsOther same]

/-- The prime cubes are the cubes of the prime implicants: a prime cube has no other variables. -/
theorem exists_mem_tablePrimes {c : Cube} (prime : c.IsPrime e.function) : ∃ m ∈ e.tablePrimes, e.cubeOf m = c := by
  have listed : ∀ l ∈ c, l.1 ∈ e.vars := fun l member =>
    mem_vars.mpr (mem_occurrences_of_dependsOn (prime.dependsOn member))
  obtain ⟨p, fits, rfl⟩ := Pattern.exists_cube_eq sorted_vars prime.ascending listed
  have isPrime := (Pattern.isPrime_iff_cube (fun _ => mem_vars.mpr) sorted_vars fits).mpr prime
  exact ⟨_, (Minimization.mem_primesOf (valid_vars hasVars)).mpr ⟨p, isPrime, rfl⟩, rfl⟩

theorem covers_iff_allows {m : Implicant} (member : m ∈ e.tablePrimes) (assign : String → Bool) :
    m.covers (Row.binaryValue (e.vars.map assign)) = true ↔ (e.cubeOf m).Allows assign := by
  obtain ⟨p, fits, _, rfl⟩ := exists_pattern_of_mem hasVars member
  rw [Implicant.covers_complete, Pattern.matches_binaryValue ((List.length_map _).trans fits.symm)]
  exact (Pattern.allows_cube assign fits).symm

theorem isPrimeCover_image {s : Finset Implicant}
    (isCover : Cover.IsCover e.tablePrimes (Table.trueRows e.vars e).toList s) :
    IsPrimeCover e.function (s.image e.cubeOf) := by
  constructor
  · intro c member
    obtain ⟨m, chosen, rfl⟩ := Finset.mem_image.mp member
    obtain ⟨p, _, prime, rfl⟩ := exists_pattern_of_mem hasVars (List.mem_toFinset.mp (isCover.subset chosen))
    exact prime
  · intro assign isTrue
    have minterm := (Table.binaryValue_mem_trueRows (e := e) (fun _ => mem_vars.mpr)).mpr isTrue
    obtain ⟨m, chosen, coversRow⟩ := isCover.covers _ minterm
    have known := List.mem_toFinset.mp (isCover.subset chosen)
    exact ⟨_, Finset.mem_image_of_mem _ chosen, (covers_iff_allows hasVars known assign).mp coversRow⟩

theorem isPrimeCover_iff {t : Finset Cube} :
    IsPrimeCover e.function t ↔
      ∃ s, Cover.IsCover e.tablePrimes (Table.trueRows e.vars e).toList s ∧ s.image e.cubeOf = t := by
  constructor
  · intro cover
    refine ⟨e.tablePrimes.toFinset.filter fun m => e.cubeOf m ∈ t, ⟨Finset.filter_subset _ _, ?_⟩, ?_⟩
    · intro row minterm
      obtain ⟨small, isTrue⟩ := Table.mem_trueRows.mp minterm
      obtain ⟨c, member, allowed⟩ := cover.covers _ isTrue
      obtain ⟨m, known, rfl⟩ := exists_mem_tablePrimes hasVars (cover.prime c member)
      refine ⟨m, Finset.mem_filter.mpr ⟨List.mem_toFinset.mpr known, member⟩, ?_⟩
      -- The row is that of the assignment by which it was found to be true.
      have coversRow := (covers_iff_allows hasVars known _).mpr allowed
      rwa [map_assignedBy nodup_vars (Row.length_assignment _ _), Row.binaryValue_assignment_of_lt small] at coversRow
    · ext c
      simp only [Finset.mem_image, Finset.mem_filter, List.mem_toFinset]
      constructor
      · rintro ⟨m, ⟨_, member⟩, rfl⟩
        exact member
      · intro member
        obtain ⟨m, known, rfl⟩ := exists_mem_tablePrimes hasVars (cover.prime c member)
        exact ⟨m, ⟨known, member⟩, rfl⟩
  · rintro ⟨s, isCover, rfl⟩
    exact isPrimeCover_image hasVars isCover

theorem image_cubeOf_injective {s t : Finset Implicant} (subset : s ⊆ e.tablePrimes.toFinset)
    (subsetOther : t ⊆ e.tablePrimes.toFinset) (same : s.image e.cubeOf = t.image e.cubeOf) : s = t := by
  have known : ∀ {u : Finset Implicant}, u ⊆ e.tablePrimes.toFinset → (u : Set Implicant) ⊆ {m | m ∈ e.tablePrimes} :=
    fun inPrimes m member => List.mem_toFinset.mp (inPrimes member)
  apply Finset.coe_injective
  apply ((injOn_cubeOf hasVars).image_eq_image_iff (known subset) (known subsetOther)).mp
  rw [← Finset.coe_image, same, Finset.coe_image]

theorem nodup_tablePrimes : e.tablePrimes.Nodup := Minimization.nodup_primesOf (valid_vars hasVars)

theorem mem_sets_iff {s : Finset Implicant} :
    s ∈ e.forms.map (·.products.toFinset) ↔
      Smallest (Cover.IsCover e.tablePrimes (Table.trueRows e.vars e).toList) s := by
  rw [forms_eq]
  exact Minimization.mem_sets_forms_iff (nodup_tablePrimes hasVars)

omit hasVars in
theorem map_toFinset_forms : (e.forms.map fun form => form.products.map e.cubeOf).map List.toFinset =
    (e.forms.map (·.products.toFinset)).map (·.image e.cubeOf) := by
  rw [List.map_map, List.map_map]
  refine List.map_congr_left fun form _ => ?_
  ext c
  simp

/-- The cubes of the minimal forms are the smallest covers by prime cubes. -/
theorem listsSmallestCovers_forms :
    ListsSmallestCovers e.function (e.forms.map fun form => form.products.map e.cubeOf) where
  nodup := by
    intro cover member
    obtain ⟨form, known, rfl⟩ := List.mem_map.mp member
    have subset := ((mem_sets_iff hasVars).mp (List.mem_map_of_mem known)).has.subset
    have inPrimes : ∀ m ∈ form.products, m ∈ e.tablePrimes := fun m product =>
      List.mem_toFinset.mp (subset (List.mem_toFinset.mpr product))
    rw [forms_eq] at known
    have distinct := Minimization.nodup_of_mem_forms (nodup_tablePrimes hasVars) known
    exact distinct.map_on fun first inFirst second inSecond same =>
      injOn_cubeOf hasVars (inPrimes first inFirst) (inPrimes second inSecond) same
  distinct := by
    have sets : (e.forms.map (·.products.toFinset)).Nodup := by
      rw [forms_eq]
      exact Minimization.nodup_sets_forms (nodup_tablePrimes hasVars)
    rw [map_toFinset_forms]
    refine sets.map_on fun first inFirst second inSecond same => ?_
    exact image_cubeOf_injective hasVars ((mem_sets_iff hasVars).mp inFirst).has.subset
      ((mem_sets_iff hasVars).mp inSecond).has.subset same
  mem_iff := by
    intro s
    have injective : ∀ s, Cover.IsCover e.tablePrimes (Table.trueRows e.vars e).toList s → Set.InjOn e.cubeOf s :=
      fun s isCover => (injOn_cubeOf hasVars).mono fun m member => List.mem_toFinset.mp (isCover.subset member)
    rw [Smallest.iff_exists_image injective fun t => isPrimeCover_iff hasVars, map_toFinset_forms, List.mem_map]
    simp only [mem_sets_iff hasVars]

end Table

theorem listsSmallestCovers_covers : ListsSmallestCovers e.function e.covers := by
  unfold covers
  by_cases noVars : e.vars.isEmpty = true
  · rw [if_pos noVars]
    apply listsSmallestCovers_of_constant
    intro assign
    exact value_congr fun name occurs => absurd occurs (occurrences_eq_nil noVars ▸ List.not_mem_nil)
  · rw [if_neg noVars]
    exact listsSmallestCovers_forms noVars

section Variables

theorem mem_occurrences_ofCover {cover : List Cube} {name : String} :
    name ∈ (ofCover cover).occurrences ↔ ∃ c ∈ cover, ∃ l ∈ c, name = l.1 := by
  unfold ofCover
  rw [mem_occurrences_ofOperands]
  simp only [List.mem_map, exists_exists_and_eq_and, Cube.mem_occurrences_term]

/-- A form mentions the variables of its prime cubes, and it could not have the value of the
function without any variable on which the function depends. -/
theorem mem_vars_iff_dependsOn {form : Expr} (member : form ∈ e.smallestSums) (name : String) :
    name ∈ form.vars ↔ DependsOn e.function name := by
  constructor
  · intro mentioned
    rw [smallestSums_eq] at member
    obtain ⟨cover, known, rfl⟩ := List.mem_map.mp member
    obtain ⟨c, inCover, l, inCube, rfl⟩ := mem_occurrences_ofCover.mp (mem_vars.mp mentioned)
    have smallest := (listsSmallestCovers_covers.mem_iff _).mp (List.mem_map_of_mem known)
    exact (smallest.has.prime c (List.mem_toFinset.mpr inCover)).dependsOn inCube
  · intro depends
    have same : form.function = e.function := funext fun assign => value_of_mem_smallestSums member assign
    exact mem_vars.mpr (mem_occurrences_of_dependsOn (same ▸ depends))

end Variables

/-- The same sum of products, up to the order of the products. A sum of fewer than two products
is its only product, or a constant. -/
inductive SameProducts : Expr → Expr → Prop where
  | refl (e : Expr) : SameProducts e e
  | sum {products others : List Expr} (perm : products.Perm others) :
      SameProducts (.nary .or products) (.nary .or others)

/-- The same sums of products, up to the order of the sums and of the products in each. -/
def SameSums (sums others : List Expr) : Prop :=
  ∃ matched, sums.Perm matched ∧ List.Forall₂ SameProducts matched others

section Order

theorem sameProducts_ofOperands {products others : List Expr} (perm : products.Perm others) :
    SameProducts (ofOperands .or products) (ofOperands .or others) := by
  match products, others, perm.length_eq with
  | [], [], _ => exact .refl _
  | [e], [_], _ =>
    obtain rfl := List.singleton_perm_singleton.mp perm
    exact .refl e
  | _ :: _ :: _, _ :: _ :: _, _ => exact .sum perm

theorem forall₂_sameProducts {covers others : List (List Cube)} (nodup : ∀ cover ∈ covers, cover.Nodup)
    (nodupOthers : ∀ cover ∈ others, cover.Nodup) (same : covers.map List.toFinset = others.map List.toFinset) :
    List.Forall₂ SameProducts (covers.map ofCover) (others.map ofCover) := by
  induction covers generalizing others with
  | nil =>
    rw [List.map_eq_nil_iff.mp same.symm]
    exact .nil
  | cons cover covers ih =>
    cases others with
    | nil => simp at same
    | cons other others =>
      obtain ⟨head, tail⟩ := List.cons.inj same
      obtain ⟨first, rest⟩ := List.forall_mem_cons.mp nodup
      obtain ⟨firstOther, restOthers⟩ := List.forall_mem_cons.mp nodupOthers
      have perm := List.perm_of_nodup_nodup_toFinset_eq first firstOther head
      exact .cons (sameProducts_ofOperands (perm.map Cube.term)) (ih rest restOthers tail)

theorem sameSums_of_lists {f : (String → Bool) → Bool} {covers others : List (List Cube)}
    (lists : ListsSmallestCovers f covers) (listsOthers : ListsSmallestCovers f others) :
    SameSums (covers.map ofCover) (others.map ofCover) := by
  have perm : (others.map List.toFinset).Perm (covers.map List.toFinset) := by
    apply (List.perm_ext_iff_of_nodup listsOthers.distinct lists.distinct).mpr
    intro s
    rw [listsOthers.mem_iff, lists.mem_iff]
  -- One list is put into the order in which it has the same sets of cubes as the other.
  have reordered : ∃ matched : List (List Cube), others.map List.toFinset = matched.map List.toFinset ∧ matched.Perm covers :=
    (congrFun (congrFun (List.eq_map_comp_perm List.toFinset) _) covers).mpr perm
  obtain ⟨matched, same, permuted⟩ := reordered
  refine ⟨matched.map ofCover, (permuted.map ofCover).symm, ?_⟩
  exact forall₂_sameProducts (fun cover member => lists.nodup cover (permuted.mem_iff.mp member)) listsOthers.nodup
    same.symm

end Order

/-- Expressions with the same value under every assignment have minimal forms, and these are the same up
to the order of the forms and of their products, even if their variables differ. Each form mentions
exactly the variables on which the value depends. -/
theorem minimalForms_canonical (first second : Expr) (settings : Settings) (noLimit : settings.coverLimit = none)
    (fewFirst : first.vars.length ≤ 24) (fewSecond : second.vars.length ≤ 24)
    (same : ∀ assign, first.value assign = second.value assign) :
    ∃ forms others, (first.minimalForms settings).outcome = .ok forms ∧
      (second.minimalForms settings).outcome = .ok others ∧ forms ≠ [] ∧ others ≠ [] ∧ SameSums forms others ∧
      ∀ form ∈ forms ++ others, ∀ name, name ∈ form.vars ↔ DependsOn (fun assign => first.value assign) name := by
  have done : ∀ e : Expr, e.vars.length ≤ Table.limit → (e.minimalForms settings).outcome = .ok e.smallestSums := by
    intro e few
    rcases outcome_minimalForms settings few with done | ⟨limit, given, _⟩
    · exact done
    · rw [noLimit] at given
      cases given
  have function : second.function = first.function := (funext same).symm
  refine ⟨_, _, done first fewFirst, done second fewSecond, smallestSums_ne_nil, smallestSums_ne_nil, ?_, ?_⟩
  · rw [smallestSums_eq, smallestSums_eq]
    exact sameSums_of_lists listsSmallestCovers_covers (function ▸ listsSmallestCovers_covers)
  · intro form member name
    rcases List.mem_append.mp member with inFirst | inSecond
    · exact mem_vars_iff_dependsOn inFirst name
    · have depends := mem_vars_iff_dependsOn inSecond name
      rw [function] at depends
      exact depends

/-- The variable that cancels out of a parity is in no form, as in those of the variable that is left. -/
theorem minimalForms_canonical_parity :
    ∃ forms others, ((Expr.nary .xor [.var "A", .var "B", .var "A"]).minimalForms {}).outcome = .ok forms ∧
      ((Expr.var "B").minimalForms {}).outcome = .ok others ∧ forms ≠ [] ∧ others ≠ [] ∧ SameSums forms others ∧
      ∀ form ∈ forms, "A" ∉ form.vars := by
  have same : ∀ assign, (Expr.nary .xor [.var "A", .var "B", .var "A"]).value assign = (Expr.var "B").value assign := by
    intro assign
    simp only [value_nary, List.map_cons, List.map_nil, value_var]
    cases assign "A" <;> cases assign "B" <;> rfl
  obtain ⟨forms, others, first, second, nonempty, nonempty', sums, mentioned⟩ :=
    minimalForms_canonical (.nary .xor [.var "A", .var "B", .var "A"]) (.var "B") {} rfl (by decide) (by decide) same
  refine ⟨forms, others, first, second, nonempty, nonempty', sums, fun form member found => ?_⟩
  obtain ⟨assign, changed⟩ := (mentioned form (List.mem_append_left _ member) "A").mp found
  refine changed ?_
  dsimp only
  have other : "B" ≠ "A" := by decide
  rw [same, same, value_var, value_var]
  exact Function.update_of_ne other _ _

end Expr

end TwoLevel
