import Mathlib.Logic.Function.Basic
import TwoLevel.Proofs.FormEvaluation
import TwoLevel.Proofs.TruthTables

/-! Products of literals by the names of their variables. Over the variables of a table, a prime
pattern is a prime cube of the function and the other way round, and a prime cube names only
variables on which the function depends. So the prime implicants of a function are the same in
every table, apart from the absent variables. -/

set_option autoImplicit false

namespace TwoLevel

/-- A product of literals: the variables that take part, each with the value it must have. -/
abbrev Cube := List (String × Bool)

/-- The value of the function changes when the variable is flipped in some assignment. -/
def DependsOn (f : (String → Bool) → Bool) (name : String) : Prop :=
  ∃ assign, f (Function.update assign name (!assign name)) ≠ f assign

/-- The Boolean function that an expression stands for. -/
def Expr.function (e : Expr) (assign : String → Bool) : Bool := e.value assign

theorem Expr.mem_occurrences_of_dependsOn {e : Expr} {name : String} (depends : DependsOn e.function name) :
    name ∈ e.occurrences := by
  by_contra absent
  obtain ⟨assign, changed⟩ := depends
  apply changed
  apply value_congr
  intro other occurs
  have different : other ≠ name := fun same => absent (same ▸ occurs)
  exact Function.update_of_ne different _ _

namespace Cube

def Allows (c : Cube) (assign : String → Bool) : Prop := ∀ literal ∈ c, assign literal.1 = literal.2

def without (c : Cube) (name : String) : Cube := c.filter (·.1 ≠ name)

def IsImplicant (f : (String → Bool) → Bool) (c : Cube) : Prop := ∀ assign, c.Allows assign → f assign = true

/-- The function is true wherever the cube allows, and without any one of its literals this fails.
The literals are ordered by their names. -/
structure IsPrime (f : (String → Bool) → Bool) (c : Cube) : Prop where
  ascending : (c.map Prod.fst).Pairwise (· < ·)
  implicant : c.IsImplicant f
  maximal : ∀ literal ∈ c, ¬(c.without literal.1).IsImplicant f

def literal : String × Bool → Expr
  | (name, true) => .var name
  | (name, false) => .not (.var name)

def term (c : Cube) : Expr := .ofOperands .and (if c.isEmpty then [.const true] else c.map literal)

variable {f : (String → Bool) → Bool} {c : Cube}

theorem mem_occurrences_literal {name : String} {l : String × Bool} :
    name ∈ (literal l).occurrences ↔ name = l.1 := by
  obtain ⟨given, value⟩ := l
  cases value <;> exact List.mem_singleton

theorem mem_occurrences_term {name : String} : name ∈ c.term.occurrences ↔ ∃ l ∈ c, name = l.1 := by
  unfold term
  rw [Expr.mem_occurrences_ofOperands]
  by_cases noLiterals : c.isEmpty = true
  · rw [if_pos noLiterals, List.isEmpty_iff.mp noLiterals]
    simp [Expr.occurrences, Expr.fold]
  · rw [if_neg noLiterals]
    simp only [List.mem_map, exists_exists_and_eq_and, mem_occurrences_literal]

theorem eq_of_fst_eq (ascending : (c.map Prod.fst).Pairwise (· < ·)) {first second : String × Bool}
    (inFirst : first ∈ c) (inSecond : second ∈ c) (same : first.1 = second.1) : first = second :=
  List.inj_on_of_nodup_map (ascending.imp fun less => Std.ne_of_lt less) inFirst inSecond same

theorem exists_allows (ascending : (c.map Prod.fst).Pairwise (· < ·)) : ∃ assign, c.Allows assign := by
  refine ⟨fun name => decide ((name, true) ∈ c), fun l member => ?_⟩
  obtain ⟨name, value⟩ := l
  cases value with
  | true => exact decide_eq_true member
  | false =>
    refine decide_eq_false fun other => ?_
    have same := eq_of_fst_eq ascending member other rfl
    cases same

/-- Where only the literal stands in the way of the cube, flipping it makes the function true. -/
theorem IsPrime.dependsOn (prime : c.IsPrime f) {l : String × Bool} (member : l ∈ c) : DependsOn f l.1 := by
  have fails := prime.maximal l member
  unfold IsImplicant at fails
  push Not at fails
  obtain ⟨assign, allowed, isFalse⟩ := fails
  have isTrue : f (Function.update assign l.1 l.2) = true := by
    apply prime.implicant
    intro other inCube
    by_cases same : other.1 = l.1
    · rw [same, Function.update_self, eq_of_fst_eq prime.ascending inCube member same]
    · rw [Function.update_of_ne same]
      exact allowed other (List.mem_filter.mpr ⟨inCube, decide_eq_true same⟩)
  have flipped : l.2 = !assign l.1 := by
    apply Bool.eq_not_of_ne
    intro same
    rw [same, Function.update_eq_self] at isTrue
    exact isFalse isTrue
  refine ⟨assign, fun unchanged => isFalse ?_⟩
  rw [← unchanged, ← flipped]
  exact isTrue

end Cube

/-- The value that a slot asks of its variable. -/
def Slot.required? : Slot → Option Bool
  | negated => some false
  | asserted => some true
  | absent => none

namespace Pattern

/-- The cube of a pattern whose variables have the given names. -/
def cube (p : Pattern) (names : List String) : Cube :=
  (p.zip names).filterMap fun (slot, name) => slot.required?.map fun value => (name, value)

section Cubes

variable {p q : Pattern} {names : List String}

theorem cube_cons (slot : Slot) (name : String) :
    cube (slot :: p) (name :: names) = (slot.required?.map fun value => (name, value)).toList ++ p.cube names := by
  unfold cube
  rw [List.zip_cons_cons, List.filterMap_cons]
  cases slot <;> rfl

theorem literals_eq_map : p.literals names = (p.cube names).map Cube.literal := by
  unfold literals cube
  rw [List.map_filterMap]
  congr 1
  funext (slot, name)
  cases slot <;> rfl

theorem term_eq : p.term names = (p.cube names).term := by
  unfold term Cube.term
  rw [literals_eq_map, List.isEmpty_map]

theorem sublist_cube : ((p.cube names).map Prod.fst).Sublist names := by
  induction p generalizing names with
  | nil => exact List.nil_sublist names
  | cons slot p ih =>
    cases names with
    | nil => exact List.Sublist.slnil
    | cons name names =>
      rw [cube_cons, List.map_append]
      cases slot with
      | negated => exact ih.cons_cons name
      | asserted => exact ih.cons_cons name
      | absent => exact ih.cons name

theorem mem_of_mem_cube {l : String × Bool} (member : l ∈ p.cube names) : l.1 ∈ names :=
  sublist_cube.subset (List.mem_map_of_mem member)

theorem mem_cube {name : String} {value : Bool} :
    (name, value) ∈ p.cube names ↔ ∃ i : Nat, p[i]? = some (.ofBool value) ∧ names[i]? = some name := by
  have asked : ∀ {slot : Slot} {value : Bool}, slot.required? = some value ↔ slot = .ofBool value := by
    intro slot value
    cases slot <;> cases value <;> decide
  unfold cube
  rw [List.mem_filterMap]
  constructor
  · rintro ⟨pair, member, made⟩
    obtain ⟨_, slot, rfl, rfl⟩ := Option.map_eq_some_iff.mp made
    obtain ⟨i, found⟩ := List.mem_iff_getElem?.mp member
    obtain ⟨first, second⟩ := List.getElem?_zip_eq_some.mp found
    exact ⟨i, asked.mp slot ▸ first, second⟩
  · rintro ⟨i, slot, given⟩
    have found : (p.zip names)[i]? = some (.ofBool value, name) := List.getElem?_zip_eq_some.mpr ⟨slot, given⟩
    exact ⟨_, List.mem_of_getElem? found, Option.map_eq_some_iff.mpr ⟨value, asked.mpr rfl, rfl⟩⟩

theorem allows_cube (assign : String → Bool) (fits : p.length = names.length) :
    (p.cube names).Allows assign ↔ p.admits (names.map assign) = true := by
  rw [← all_literals assign fits.symm, literals_eq_map, List.map_map, List.all_map, List.all_eq_true]
  refine forall₂_congr fun l _ => ?_
  obtain ⟨name, value⟩ := l
  cases value <;> simp [Cube.literal]

/-- Leaving a variable out of the pattern removes its literal from the cube. -/
theorem cube_leaveOut (distinct : names.Nodup) {i : Nat} {name : String} (found : names[i]? = some name) :
    (p.leaveOut i).cube names = (p.cube names).without name := by
  induction names generalizing p i with
  | nil => simp at found
  | cons first names ih =>
    obtain ⟨fresh, distinctTail⟩ := List.nodup_cons.mp distinct
    cases p with
    | nil => rfl
    | cons slot p =>
      unfold Cube.without
      rw [cube_cons, List.filter_append]
      cases i with
      | zero =>
        obtain rfl := Option.some.inj found
        have kept : (cube p names).filter (fun l => l.1 ≠ first) = cube p names := by
          apply List.filter_eq_self.mpr
          intro l member
          exact decide_eq_true fun same => fresh (same ▸ mem_of_mem_cube member)
        rw [kept]
        show cube (.absent :: p) (first :: names) = _
        rw [cube_cons]
        cases slot <;> simp [Slot.required?]
      | succ i =>
        have different : first ≠ name := fun same => fresh (same ▸ List.mem_of_getElem? found)
        show cube (slot :: leaveOut p i) (first :: names) = _
        rw [cube_cons, ih distinctTail found]
        unfold Cube.without
        cases slot <;> simp [Slot.required?, different]

theorem cube_injective (distinct : names.Nodup) (fits : p.length = names.length) (fitsOther : q.length = names.length)
    (same : p.cube names = q.cube names) : p = q := by
  induction names generalizing p q with
  | nil => rw [List.length_eq_zero_iff.mp fits, List.length_eq_zero_iff.mp fitsOther]
  | cons name names ih =>
    obtain ⟨fresh, distinctTail⟩ := List.nodup_cons.mp distinct
    -- The other cube has no literal of the first variable unless its slot asks for one.
    have missing : ∀ (r : Pattern) value, (name, value) ∉ r.cube names := fun r value member =>
      fresh (mem_of_mem_cube member)
    cases p with
    | nil => simp at fits
    | cons first p =>
      cases q with
      | nil => simp at fitsOther
      | cons second q =>
        have tails := @ih p q distinctTail (Nat.succ.inj fits) (Nat.succ.inj fitsOther)
        have head : ∀ (slot : Slot) (r : Pattern) value,
            (name, value) ∈ cube (slot :: r) (name :: names) ↔ slot.required? = some value := by
          intro slot r value
          simp [cube_cons, missing]
        have heads : first.required? = second.required? := by
          apply Option.ext
          intro value
          rw [← head first p, same, head second q]
        have slots : first = second := by
          revert heads
          cases first <;> cases second <;> decide
        rw [slots, cube_cons, cube_cons] at same
        rw [slots, tails (List.append_cancel_left same)]

/-- Every cube over some of the variables is the cube of a pattern. -/
theorem exists_cube_eq {c : Cube} (sorted : names.Pairwise (· < ·)) (ascending : (c.map Prod.fst).Pairwise (· < ·))
    (listed : ∀ l ∈ c, l.1 ∈ names) : ∃ p : Pattern, p.length = names.length ∧ p.cube names = c := by
  induction names generalizing c with
  | nil =>
    have empty : c = [] := List.eq_nil_iff_forall_not_mem.mpr fun l member => absurd (listed l member) List.not_mem_nil
    exact ⟨[], rfl, empty.symm⟩
  | cons name names ih =>
    obtain ⟨below, sortedTail⟩ := List.pairwise_cons.mp sorted
    by_cases takesPart : name ∈ c.map Prod.fst
    · -- The first variable can only be that of the first literal.
      cases c with
      | nil => cases takesPart
      | cons l c =>
        obtain ⟨belowTail, ascendingTail⟩ := List.pairwise_cons.mp ascending
        have head : l.1 = name := by
          rcases List.mem_cons.mp takesPart with same | later
          · exact same.symm
          · have less := belowTail name later
            rcases List.mem_cons.mp (listed l List.mem_cons_self) with same | other
            · exact same
            · exact absurd (Std.lt_trans less (below l.1 other)) Std.lt_irrefl
        obtain ⟨p, fits, rfl⟩ := ih sortedTail ascendingTail fun other member => by
          refine (List.mem_cons.mp (listed other (List.mem_cons_of_mem l member))).resolve_left fun same => ?_
          have less := belowTail other.1 (List.mem_map_of_mem member)
          rw [head, same] at less
          exact Std.lt_irrefl less
        refine ⟨.ofBool l.2 :: p, congrArg Nat.succ fits, ?_⟩
        rw [cube_cons, ← head]
        obtain ⟨given, value⟩ := l
        cases value <;> rfl
    · obtain ⟨p, fits, rfl⟩ := ih sortedTail ascending fun l member =>
        (List.mem_cons.mp (listed l member)).resolve_left fun same =>
          takesPart (same ▸ List.mem_map_of_mem member)
      exact ⟨.absent :: p, congrArg Nat.succ fits, cube_cons _ _⟩

end Cubes

section Primes

variable {e : Expr} {names : List String} {p : Pattern}

theorem isImplicant_iff_cube (listed : ∀ name ∈ e.occurrences, name ∈ names) (distinct : names.Nodup)
    (fits : p.length = names.length) :
    p.IsImplicant (Table.trueRows names e) ∅ ↔ (p.cube names).IsImplicant e.function := by
  constructor
  · intro implicant assign allowed
    have admitted := (allows_cube assign fits).mp allowed
    have matched := (matches_binaryValue ((List.length_map _).trans fits.symm)).mpr admitted
    exact (Table.binaryValue_mem_trueRows listed).mp ((implicant _ matched).resolve_right List.not_mem_nil)
  · intro implicant row matched
    obtain ⟨small, admitted⟩ := matched
    rw [fits] at small admitted
    -- The assignment of the row gives the variables the values that the row has.
    have values := Expr.map_assignedBy distinct (Row.length_assignment names.length row)
    refine .inl (Table.mem_trueRows.mpr ⟨small, implicant _ ((allows_cube _ fits).mpr ?_)⟩)
    rw [values]
    exact admitted

theorem isPrime_iff_cube (listed : ∀ name ∈ e.occurrences, name ∈ names) (sorted : names.Pairwise (· < ·))
    (fits : p.length = names.length) :
    p.IsPrime (Table.trueRows names e) ∅ names.length ↔ (p.cube names).IsPrime e.function := by
  have distinct : names.Nodup := sorted.imp fun less => Std.ne_of_lt less
  have ascending : ((p.cube names).map Prod.fst).Pairwise (· < ·) := sorted.sublist sublist_cube
  have shorter : ∀ i name, names[i]? = some name →
      ((p.leaveOut i).IsImplicant (Table.trueRows names e) ∅ ↔
        ((p.cube names).without name).IsImplicant e.function) := by
    intro i name found
    rw [← cube_leaveOut distinct found]
    exact isImplicant_iff_cube listed distinct (List.length_set.trans fits)
  rw [isPrime_iff, isImplicant_iff_cube listed distinct fits]
  constructor
  · rintro ⟨_, implicant, _, closed⟩
    refine ⟨ascending, implicant, fun l member wider => closed ?_⟩
    obtain ⟨i, slot, given⟩ := mem_cube.mp member
    obtain ⟨inRange, same⟩ := List.getElem?_eq_some_iff.mp slot
    refine ⟨⟨i, inRange⟩, ?_, (shorter i l.1 given).mpr wider⟩
    show p[i] ≠ .absent
    rw [same]
    cases l.2 <;> exact Slot.noConfusion
  · intro prime
    refine ⟨fits, prime.implicant, ?_, ?_⟩
    · obtain ⟨assign, allowed⟩ := Cube.exists_allows ascending
      refine ⟨_, (Table.binaryValue_mem_trueRows listed).mpr (prime.implicant assign allowed), ?_⟩
      exact (matches_binaryValue ((List.length_map _).trans fits.symm)).mpr ((allows_cube assign fits).mp allowed)
    · rintro ⟨i, named, wider⟩
      have inNames : (i : Nat) < names.length := fits ▸ i.isLt
      have given : names[(i : Nat)]? = some names[(i : Nat)] := List.getElem?_eq_getElem inNames
      have slot : ∃ value, p[i] = .ofBool value := by
        cases found : p[i] with
        | negated => exact ⟨false, rfl⟩
        | asserted => exact ⟨true, rfl⟩
        | absent => exact absurd found named
      obtain ⟨value, asks⟩ := slot
      have member := mem_cube.mpr ⟨i, (List.getElem?_eq_getElem i.isLt).trans (congrArg some asks), given⟩
      exact prime.maximal _ member ((shorter i _ given).mp wider)

end Primes

end Pattern

end TwoLevel
