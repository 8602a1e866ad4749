import Mathlib.Data.Finset.Sort
import TwoLevel.Proofs.Products
import TwoLevel.Proofs.Words

/-! Sets of indexes in machine words. The capacity of such a set is rounded up to whole words, and
each word keeps 64 indexes. The members are found by taking away the lowest bit of a word until it is
zero, and then going on to the next word that is not. Nothing that can be asked of the set tells it
from the set whose bits are those of one number. -/

set_option autoImplicit false

namespace TwoLevel

/-- A set of indexes in words of 64 bits, the lowest indexes in the first word. -/
structure WordSet where
  words : List Word
  deriving DecidableEq

/-- An iteration on its way: the number of the word that it has come to, and the bits of this word
that are still to come. -/
structure WordCursor where
  number : Nat
  current : Word

namespace WordSet

/-- The empty set for indexes below the capacity. -/
def empty (capacity : Nat) : WordSet := ⟨List.replicate ((capacity + 63) / 64) 0⟩

def contains (s : WordSet) (i : Nat) : Bool :=
  match s.words[i / 64]? with
  | none => false
  | some word => word.bit (i % 64)

/-- Add an index, and tell whether it is new. It must have a word. -/
def insert (s : WordSet) (i : Nat) : Option (Bool × WordSet) :=
  match s.words[i / 64]? with
  | none => none
  | some word => some (word &&& 1#64 <<< (i % 64) == 0, ⟨s.words.set (i / 64) (word ||| 1#64 <<< (i % 64))⟩)

/-- A copy with the index added. -/
def adding (s : WordSet) (i : Nat) : Option WordSet := (s.insert i).map Prod.snd

def size (s : WordSet) : Nat := s.words.foldl (fun count word => count + word.cpop.toNat) 0

def isEmpty (s : WordSet) : Bool := s.words.all (· == 0)

def start (s : WordSet) : WordCursor := ⟨0, s.words.headD 0⟩

end WordSet

namespace WordCursor

/-- The next member. Words without bits are passed over. -/
def next (words : List Word) (cursor : WordCursor) : Option Nat × WordCursor :=
  if cursor.current = 0 then
    if inRange : cursor.number + 1 < words.length then next words ⟨cursor.number + 1, words[cursor.number + 1]⟩
    else (none, ⟨cursor.number + 1, 0⟩)
  else
    (some (64 * cursor.number + cursor.current.ctz.toNat),
      { cursor with current := cursor.current &&& (cursor.current - 1) })
termination_by words.length - cursor.number

/-- What the iteration yields when it is asked once more after the given number of times. -/
def yields (words : List Word) (cursor : WordCursor) : Nat → Option Nat
  | 0 => (cursor.next words).1
  | k + 1 => (cursor.next words).2.yields words k

end WordCursor

/-- An index is added to a set in place, or a copy with the index takes the place of the set. -/
inductive Addition where
  | inPlace (i : Nat)
  | toCopy (i : Nat)
  deriving DecidableEq, Repr

namespace Addition

def index : Addition → Nat
  | inPlace i => i
  | toCopy i => i

/-- The indexes that are added. -/
def members (additions : List Addition) : Finset Nat := (additions.map index).toFinset

end Addition

namespace WordSet

def apply (s : WordSet) : Addition → Option WordSet
  | .inPlace i => (s.insert i).map Prod.snd
  | .toCopy i => s.adding i

/-- The set that additions to the empty set lead to. -/
def run (capacity : Nat) (additions : List Addition) : Option WordSet := additions.foldlM apply (.empty capacity)

end WordSet

/-- All that can be asked of a set of indexes. -/
structure IndexView where
  contains : Nat → Bool
  size : Nat
  isEmpty : Bool
  /-- What an iteration yields when it is asked once more after the given number of times. -/
  yields : Nat → Option Nat

/-- What a set with the given members is to answer. -/
def IndexView.ofMembers (members : Finset Nat) : IndexView :=
  ⟨fun i => decide (i ∈ members), members.card, decide (members = ∅), fun k => members.sort[k]?⟩

def IndexSet.view (s : IndexSet) : IndexView := ⟨s.contains, s.size, s.isEmpty, fun k => s.toList[k]?⟩

def WordSet.view (s : WordSet) : IndexView := ⟨s.contains, s.size, s.isEmpty, s.start.yields s.words⟩

/-- Add `i`, and tell whether it was a member before. -/
def IndexSet.containsThenInsert (s : IndexSet) (i : Nat) : Bool × IndexSet := (s.contains i, s.insert i)

namespace Word

/-- The positions of the bits that are one, in ascending order. -/
def ones (word : Word) : List Nat := (List.range 64).filter word.getLsbD

@[simp] theorem mem_ones {word : Word} {i : Nat} : i ∈ word.ones ↔ word.getLsbD i = true := by
  rw [ones, List.mem_filter, List.mem_range]
  exact and_iff_right_of_imp BitVec.lt_of_getLsbD

theorem pairwise_ones (word : Word) : word.ones.Pairwise (· < ·) := List.pairwise_lt_range.filter _

theorem ones_zero : ones 0 = [] :=
  List.eq_nil_iff_forall_not_mem.mpr fun i member => by simp at member

theorem length_ones (word : Word) : word.ones.length = word.cpop.toNat := by
  have counted : ∀ n, ((List.range n).filter word.getLsbD).length = word.cpopNatRec n 0 := by
    intro n
    induction n with
    | zero => rfl
    | succ n ih =>
      rw [List.range_succ, List.filter_append, List.length_append, ih, BitVec.cpopNatRec_succ,
        BitVec.cpopNatRec_add]
      cases found : word.getLsbD n <;> simp [found]
  rw [ones, counted, BitVec.toNat_cpop]

/-- Below the lowest bit a number that is not zero has no digits. -/
theorem exists_toNat_eq {word : Word} (nonzero : word ≠ 0) :
    ∃ high, word.toNat = 2 ^ (word.ctz.toNat + 1) * high + 2 ^ word.ctz.toNat := by
  refine ⟨word.toNat / 2 ^ (word.ctz.toNat + 1), ?_⟩
  have lowest : word.toNat % 2 ^ (word.ctz.toNat + 1) = 2 ^ word.ctz.toNat := by
    apply Nat.eq_of_testBit_eq
    intro i
    rw [Nat.testBit_mod_two_pow, Nat.testBit_two_pow, BitVec.testBit_toNat]
    rcases Nat.lt_trichotomy i word.ctz.toNat with below | rfl | above
    · rw [BitVec.getLsbD_false_of_lt_ctz below, Bool.and_false, decide_eq_false (Nat.ne_of_gt below)]
    · rw [BitVec.getLsbD_true_ctz_of_ne_zero nonzero, Bool.and_true, decide_eq_true rfl,
        decide_eq_true (Nat.lt_succ_self _)]
    · rw [decide_eq_false (Nat.not_lt_of_le above), Bool.false_and, decide_eq_false (Nat.ne_of_lt above)]
  rw [← lowest, Nat.div_add_mod]

/-- Subtracting one borrows from the lowest bit only. -/
theorem getLsbD_and_sub_one {word : Word} (nonzero : word ≠ 0) (i : Nat) :
    (word &&& (word - 1)).getLsbD i = (word.getLsbD i && decide (i ≠ word.ctz.toNat)) := by
  obtain ⟨high, value⟩ := exists_toNat_eq nonzero
  generalize word.ctz.toNat = lowest at value
  have positive := Nat.two_pow_pos lowest
  have less : (word - 1).toNat = 2 ^ (lowest + 1) * high + (2 ^ lowest - 1) := by
    have one : (1 : Word) ≤ word := by
      rw [BitVec.le_def, value]
      exact Nat.le_add_left_of_le positive
    rw [BitVec.toNat_sub_of_le one, value]
    exact Nat.add_sub_assoc positive _
  have bound : 2 ^ lowest < 2 ^ (lowest + 1) := Nat.pow_lt_pow_succ Nat.one_lt_two
  rw [BitVec.getLsbD_and, ← BitVec.testBit_toNat, ← BitVec.testBit_toNat, value, less,
    Nat.testBit_two_pow_mul_add high bound, Nat.testBit_two_pow_mul_add high (Nat.lt_of_le_of_lt (Nat.sub_le _ 1) bound)]
  rcases Nat.lt_or_ge i (lowest + 1) with inside | above
  · -- Of these digits the number has the lowest bit only, and with one less it has those before it.
    rw [if_pos inside, if_pos inside, Nat.testBit_two_pow, Nat.testBit_two_pow_sub_one]
    rcases Nat.lt_succ_iff_lt_or_eq.mp inside with below | rfl
    · rw [decide_eq_false (Nat.ne_of_gt below), Bool.false_and, Bool.false_and]
    · simp
  · rw [if_neg (Nat.not_lt_of_le above), if_neg (Nat.not_lt_of_le above), Bool.and_self,
      decide_eq_true (Nat.ne_of_gt above), Bool.and_true]

theorem ones_of_ne_zero {word : Word} (nonzero : word ≠ 0) :
    word.ones = word.ctz.toNat :: (word &&& (word - 1)).ones := by
  have lowest : ∀ i ∈ (word &&& (word - 1)).ones, word.ctz.toNat < i := by
    intro i member
    rw [mem_ones, getLsbD_and_sub_one nonzero, Bool.and_eq_true, decide_eq_true_eq] at member
    refine Nat.lt_of_le_of_ne (Nat.le_of_not_lt fun below => ?_) member.2.symm
    exact Bool.false_ne_true ((BitVec.getLsbD_false_of_lt_ctz below).symm.trans member.1)
  refine word.pairwise_ones.eq_of_mem_iff ((pairwise_ones _).cons lowest) fun i => ?_
  rw [List.mem_cons, mem_ones, mem_ones, getLsbD_and_sub_one nonzero, Bool.and_eq_true, decide_eq_true_eq]
  by_cases same : i = word.ctz.toNat
  · exact iff_of_true (same ▸ BitVec.getLsbD_true_ctz_of_ne_zero nonzero) (.inl same)
  · rw [and_iff_left same, or_iff_right same]

end Word

namespace WordSet

/-- The number whose digits to the base of a word are the words, lowest first. -/
def value : List Word → Nat
  | [] => 0
  | word :: words => 2 ^ 64 * value words + word.toNat

/-- The set that has the bits of the words in one number. -/
def toIndexSet (s : WordSet) : IndexSet := ⟨value s.words⟩

/-- The positions of all bits that are one, in ascending order. -/
def indexes : List Word → List Nat
  | [] => []
  | word :: words => word.ones ++ (indexes words).map (64 + ·)

variable {s : WordSet} {word : Word} {words : List Word} {i : Nat}

theorem contains_cons (word : Word) (words : List Word) (i : Nat) :
    contains ⟨word :: words⟩ i = if i < 64 then word.getLsbD i else contains ⟨words⟩ (i - 64) := by
  unfold contains
  rcases Nat.lt_or_ge i 64 with inside | beyond
  · rw [if_pos inside, Nat.div_eq_of_lt inside, Nat.mod_eq_of_lt inside]
    exact word.bit_eq i
  · have number : i / 64 = (i - 64) / 64 + 1 := by omega
    have position : i % 64 = (i - 64) % 64 := by omega
    rw [if_neg (Nat.not_lt_of_le beyond), number, position]
    rfl

theorem testBit_value_cons (word : Word) (words : List Word) (i : Nat) :
    (value (word :: words)).testBit i = if i < 64 then word.getLsbD i else (value words).testBit (i - 64) := by
  rw [value, Nat.testBit_two_pow_mul_add _ word.isLt, BitVec.testBit_toNat]

theorem contains_toIndexSet (s : WordSet) (i : Nat) : s.toIndexSet.contains i = s.contains i := by
  obtain ⟨words⟩ := s
  show (value words).testBit i = _
  induction words generalizing i with
  | nil => exact Nat.zero_testBit i
  | cons word words ih => rw [testBit_value_cons, contains_cons, ih]

theorem mem_toIndexSet : i ∈ s.toIndexSet ↔ s.contains i = true := by
  rw [← contains_toIndexSet]
  rfl

theorem mem_indexes : i ∈ indexes words ↔ contains ⟨words⟩ i = true := by
  induction words generalizing i with
  | nil => exact iff_of_false List.not_mem_nil Bool.false_ne_true
  | cons word words ih =>
    rw [indexes, List.mem_append, Word.mem_ones, List.mem_map, contains_cons]
    rcases Nat.lt_or_ge i 64 with inside | beyond
    · rw [if_pos inside, or_iff_left]
      rintro ⟨j, _, rfl⟩
      omega
    · rw [if_neg (Nat.not_lt_of_le beyond), ← ih, BitVec.getLsbD_of_ge _ _ beyond,
        or_iff_right Bool.false_ne_true]
      constructor
      · rintro ⟨j, member, rfl⟩
        rwa [Nat.add_sub_cancel_left]
      · exact fun member => ⟨i - 64, member, Nat.add_sub_of_le beyond⟩

theorem indexes_zero_cons : indexes (0 :: words) = (indexes words).map (64 + ·) := by
  rw [indexes, Word.ones_zero, List.nil_append]

theorem indexes_cons_of_ne_zero (nonzero : word ≠ 0) :
    indexes (word :: words) = word.ctz.toNat :: indexes ((word &&& (word - 1)) :: words) := by
  rw [indexes, Word.ones_of_ne_zero nonzero, List.cons_append, ← indexes]

theorem pairwise_indexes (words : List Word) : (indexes words).Pairwise (· < ·) := by
  induction words with
  | nil => exact .nil
  | cons word words ih =>
    rw [indexes, List.pairwise_append]
    refine ⟨word.pairwise_ones, ih.map _ fun i j less => Nat.add_lt_add_left less 64, fun i low j high => ?_⟩
    obtain ⟨k, _, rfl⟩ := List.mem_map.mp high
    exact Nat.lt_add_right k (BitVec.lt_of_getLsbD (Word.mem_ones.mp low))

theorem toList_toIndexSet (s : WordSet) : s.toIndexSet.toList = indexes s.words := by
  refine s.toIndexSet.pairwise_toList.eq_of_mem_iff (pairwise_indexes s.words) fun i => ?_
  rw [IndexSet.mem_toList, mem_toIndexSet, mem_indexes]

theorem size_eq (s : WordSet) : s.size = (indexes s.words).length := by
  obtain ⟨words⟩ := s
  -- The induction is for every number of members that have been counted before.
  have counted : ∀ start, words.foldl (fun count word => count + word.cpop.toNat) start =
      start + (indexes words).length := by
    induction words with
    | nil => exact fun start => rfl
    | cons word words ih =>
      intro start
      rw [List.foldl_cons, ih, indexes, List.length_append, List.length_map, Word.length_ones, Nat.add_assoc]
  exact (counted 0).trans (Nat.zero_add _)

theorem value_eq_zero_iff : value words = 0 ↔ ∀ word ∈ words, word = 0 := by
  induction words with
  | nil => exact iff_of_true rfl fun _ member => absurd member List.not_mem_nil
  | cons word words ih =>
    have zero : word = 0 ↔ word.toNat = 0 := BitVec.toNat_inj.symm
    rw [value, List.forall_mem_cons, ← ih, zero]
    omega

theorem isEmpty_toIndexSet (s : WordSet) : s.toIndexSet.isEmpty = s.isEmpty := by
  rw [Bool.eq_iff_iff, IndexSet.isEmpty, isEmpty, List.all_eq_true, beq_iff_eq]
  simp only [beq_iff_eq]
  exact value_eq_zero_iff

theorem eq_of_value_eq {others : List Word} (length : words.length = others.length)
    (same : value words = value others) : words = others := by
  induction words generalizing others with
  | nil => exact (List.length_eq_zero_iff.mp length.symm).symm
  | cons word words ih =>
    cases others with
    | nil => cases length
    | cons other others =>
      rw [value, value] at same
      have low := word.isLt
      have otherLow := other.isLt
      have first : word.toNat = other.toNat := by omega
      rw [BitVec.eq_of_toNat_eq first, ih (Nat.succ.inj length) (by omega)]

/-- Sets with the same number of words are equal if they have the same members. -/
theorem eq_of_toIndexSet_eq {t : WordSet} (length : s.words.length = t.words.length)
    (same : s.toIndexSet = t.toIndexSet) : s = t :=
  congrArg mk (eq_of_value_eq length (congrArg IndexSet.bits same))

section Insertion

theorem contains_of_getElem? (found : s.words[i / 64]? = some word) :
    s.contains i = word.getLsbD (i % 64) := by
  rw [contains, found]
  exact word.bit_eq (i % 64)

/-- The bit that is set is the one of the index, in the word that has it and in no other. -/
theorem contains_set (found : s.words[i / 64]? = some word) (j : Nat) :
    contains ⟨s.words.set (i / 64) (word ||| 1#64 <<< (i % 64))⟩ j = (decide (j = i) || s.contains j) := by
  have stored : i / 64 < s.words.length := (List.getElem?_eq_some_iff.mp found).1
  by_cases same : i / 64 = j / 64
  · -- Indexes of one word are the same if their positions in it are.
    have set : (s.words.set (i / 64) (word ||| 1#64 <<< (i % 64)))[j / 64]? = some (word ||| 1#64 <<< (i % 64)) := by
      rw [← same, List.getElem?_set_self stored]
    have position : decide (i % 64 < 64 ∧ i % 64 = j % 64) = decide (j = i) := decide_eq_decide.mpr (by omega)
    rw [contains_of_getElem? set, contains_of_getElem? (same ▸ found), BitVec.getLsbD_or, ← BitVec.twoPow_eq,
      BitVec.getLsbD_twoPow, ← Bool.decide_and, position, Bool.or_comm]
  · have other : j ≠ i := fun equal => same (congrArg (· / 64) equal.symm)
    rw [decide_eq_false other, Bool.false_or, contains, contains, List.getElem?_set_ne same]

theorem and_single_eq_zero (word : Word) {k : Nat} (inside : k < 64) :
    (word &&& 1#64 <<< k == 0) = !word.getLsbD k := by
  have nonzero : BitVec.twoPow 64 k ≠ 0#64 := by
    intro zero
    have set := congrArg (BitVec.getLsbD · k) zero
    simp [inside] at set
  rw [← BitVec.twoPow_eq, BitVec.and_twoPow]
  cases word.getLsbD k <;> simp [nonzero]

theorem exists_insert (s : WordSet) (stored : i / 64 < s.words.length) :
    ∃ t, s.insert i = some (!s.contains i, t) ∧ t.words.length = s.words.length ∧
      t.toIndexSet = s.toIndexSet.insert i := by
  obtain ⟨word, found⟩ : ∃ word, s.words[i / 64]? = some word := ⟨_, List.getElem?_eq_getElem stored⟩
  refine ⟨⟨s.words.set (i / 64) (word ||| 1#64 <<< (i % 64))⟩, ?_, List.length_set, ?_⟩
  · rw [insert, found, contains_of_getElem? found, ← and_single_eq_zero word (Nat.mod_lt i (by decide))]
  · apply IndexSet.ext_of_mem
    intro j
    rw [mem_toIndexSet, contains_set found, IndexSet.mem_insert, mem_toIndexSet, Bool.or_eq_true,
      decide_eq_true_eq]

end Insertion

end WordSet

namespace WordCursor

open WordSet

variable {words : List Word} {cursor : WordCursor}

/-- The members that are still to come. -/
def ahead (words : List Word) (cursor : WordCursor) : List Nat :=
  (indexes (cursor.current :: words.drop (cursor.number + 1))).map (64 * cursor.number + ·)

theorem ahead_of_zero (zero : cursor.current = 0) (inRange : cursor.number + 1 < words.length) :
    ahead words cursor = ahead words ⟨cursor.number + 1, words[cursor.number + 1]⟩ := by
  rw [ahead, ahead, zero, indexes_zero_cons, List.map_map, List.drop_eq_getElem_cons inRange]
  refine List.map_congr_left fun i _ => ?_
  show 64 * cursor.number + (64 + i) = 64 * (cursor.number + 1) + i
  omega

theorem ahead_of_ends (zero : cursor.current = 0) (ends : ¬cursor.number + 1 < words.length) :
    ahead words cursor = [] := by
  rw [ahead, zero, indexes_zero_cons, List.drop_eq_nil_of_le (Nat.le_of_not_lt ends)]
  rfl

theorem ahead_of_ne_zero (nonzero : cursor.current ≠ 0) :
    ahead words cursor = (64 * cursor.number + cursor.current.ctz.toNat) ::
      ahead words { cursor with current := cursor.current &&& (cursor.current - 1) } := by
  rw [ahead, indexes_cons_of_ne_zero nonzero, List.map_cons]
  rfl

/-- One step of the iteration takes the first of the members that are still to come. -/
theorem next_eq (words : List Word) (cursor : WordCursor) :
    (cursor.next words).1 = (cursor.ahead words).head? ∧
      (cursor.next words).2.ahead words = (cursor.ahead words).tail := by
  fun_induction next words cursor with
  | case1 cursor zero inRange ih => rwa [ahead_of_zero zero inRange]
  | case2 cursor zero ends =>
    -- The cursor moves past the end once more whenever it is asked, with nothing ahead of it.
    rw [ahead_of_ends zero ends, ahead_of_ends rfl]
    · exact ⟨rfl, rfl⟩
    · exact fun inRange => ends (Nat.lt_of_succ_lt inRange)
  | case3 cursor nonzero =>
    rw [ahead_of_ne_zero nonzero]
    exact ⟨rfl, rfl⟩

theorem yields_eq (words : List Word) (cursor : WordCursor) (k : Nat) :
    cursor.yields words k = (cursor.ahead words)[k]? := by
  induction k generalizing cursor with
  | zero => rw [yields, (next_eq words cursor).1, List.head?_eq_getElem?]
  | succ k ih => rw [yields, ih, (next_eq words cursor).2, List.getElem?_tail]

theorem ahead_start (s : WordSet) : s.start.ahead s.words = indexes s.words := by
  have unmoved : ∀ l : List Nat, l.map (64 * 0 + ·) = l := fun l => by simp
  obtain ⟨words⟩ := s
  cases words with
  | nil => exact (unmoved _).trans indexes_zero_cons
  | cons word words => exact unmoved _

end WordCursor

/-- A set whose bits are those of one number answers for its members. -/
theorem IndexSet.view_eq (s : IndexSet) : s.view = .ofMembers s.toFinset := by
  have contains : ∀ i, s.contains i = decide (i ∈ s.toFinset) := fun i => by
    rw [Bool.eq_iff_iff, decide_eq_true_eq, mem_toFinset]
    rfl
  have isEmpty : s.isEmpty = decide (s.toFinset = ∅) := by
    have empty : toFinset ∅ = ∅ := by rw [toFinset, toList_empty, List.toFinset_nil]
    rw [Bool.eq_iff_iff, decide_eq_true_eq, ← empty, toFinset_injective.eq_iff, IndexSet.isEmpty, beq_iff_eq]
    exact ⟨congrArg mk, congrArg bits⟩
  have sorted : s.toFinset.sort = s.toList :=
    (List.toFinset_sort _ s.nodup_toList).mpr (s.pairwise_toList.imp Nat.le_of_lt)
  rw [view, IndexView.ofMembers, funext contains, card_toFinset, isEmpty, sorted]
  rfl

/-- A set in words answers like the set whose bits are those of one number. -/
theorem WordSet.view_toIndexSet (s : WordSet) : s.toIndexSet.view = s.view := by
  have yields : s.start.yields s.words = fun k => s.toIndexSet.toList[k]? := funext fun k => by
    rw [WordCursor.yields_eq, WordCursor.ahead_start, toList_toIndexSet]
  rw [IndexSet.view, view, funext (contains_toIndexSet s), IndexSet.size, toList_toIndexSet, ← size_eq,
    isEmpty_toIndexSet, yields, toList_toIndexSet]

namespace WordSet

theorem apply_eq (s : WordSet) (addition : Addition) : s.apply addition = s.adding addition.index := by
  cases addition <;> rfl

/-- There is a word for every index below the capacity. -/
def Fits (s : WordSet) (capacity : Nat) : Prop := s.words.length = (capacity + 63) / 64

variable {s : WordSet} {capacity i : Nat}

theorem Fits.stored (fits : s.Fits capacity) (inRange : i < capacity) : i / 64 < s.words.length := by
  rw [fits]
  omega

theorem fits_empty (capacity : Nat) : (empty capacity).Fits capacity := List.length_replicate

theorem toIndexSet_empty (capacity : Nat) : (empty capacity).toIndexSet = ∅ :=
  congrArg IndexSet.mk (value_eq_zero_iff.mpr fun _ member => List.eq_of_mem_replicate member)

/-- An addition within the capacity succeeds, and it tells whether the index is new. -/
theorem Fits.exists_insert (fits : s.Fits capacity) (inRange : i < capacity) :
    ∃ t, s.insert i = some (!s.contains i, t) ∧ s.adding i = some t ∧ t.Fits capacity ∧
      t.toIndexSet = s.toIndexSet.insert i := by
  obtain ⟨t, inserted, length, same⟩ := s.exists_insert (fits.stored inRange)
  exact ⟨t, inserted, congrArg (Option.map Prod.snd) inserted, length.trans fits, same⟩

/-- Additions within the capacity succeed in any order. -/
theorem Fits.exists_foldlM (fits : s.Fits capacity) {additions : List Addition}
    (inRange : ∀ addition ∈ additions, addition.index < capacity) :
    ∃ t, additions.foldlM apply s = some t ∧ t.Fits capacity ∧
      t.toIndexSet = (additions.map Addition.index).foldl IndexSet.insert s.toIndexSet := by
  induction additions generalizing s with
  | nil => exact ⟨s, rfl, fits, rfl⟩
  | cons addition additions ih =>
    obtain ⟨first, rest⟩ := List.forall_mem_cons.mp inRange
    obtain ⟨t, _, added, fits', same⟩ := fits.exists_insert first
    obtain ⟨u, ran, fits'', all⟩ := ih fits' rest
    refine ⟨u, ?_, fits'', ?_⟩
    · rw [List.foldlM_cons, apply_eq, added]
      exact ran
    · rw [List.map_cons, List.foldl_cons, ← same, all]

theorem exists_run {additions : List Addition}
    (inRange : ∀ addition ∈ additions, addition.index < capacity) :
    ∃ s, run capacity additions = some s ∧ s.Fits capacity ∧
      s.toIndexSet = .ofList (additions.map Addition.index) := by
  obtain ⟨s, ran, fits, same⟩ := (fits_empty capacity).exists_foldlM inRange
  rw [toIndexSet_empty] at same
  exact ⟨s, ran, fits, same⟩

/-- A set that additions within its capacity lead to, in place or to copies. No addition fails. What
is asked of the set is answered for the set of the indexes that were added, and a further addition
tells whether its index is new. Sets of one capacity are equal if and only if their members are,
whatever the order of the additions. The set with the same bits in one number answers alike. -/
theorem run_refines {capacity : Nat} {additions : List Addition}
    (inRange : ∀ addition ∈ additions, addition.index < capacity) :
    ∃ s, run capacity additions = some s ∧ s.view = .ofMembers (Addition.members additions) ∧
      (∀ i < capacity, ∃ t, s.insert i = some (decide (i ∉ Addition.members additions), t) ∧
        s.adding i = some t ∧ t.view = .ofMembers (Insert.insert i (Addition.members additions)) ∧
        s.toIndexSet.containsThenInsert i = (decide (i ∈ Addition.members additions), t.toIndexSet)) ∧
      (∀ others, (∀ addition ∈ others, addition.index < capacity) → ∀ t, run capacity others = some t →
        (s = t ↔ Addition.members additions = Addition.members others) ∧
          (s.toIndexSet = t.toIndexSet ↔ Addition.members additions = Addition.members others)) ∧
      s.toIndexSet = .ofList (additions.map Addition.index) ∧
      s.toIndexSet.view = .ofMembers (Addition.members additions) := by
  obtain ⟨s, ran, fits, same⟩ := exists_run inRange
  have members : s.toIndexSet.toFinset = Addition.members additions := by
    rw [same, IndexSet.toFinset_ofList, Addition.members]
  have view : s.toIndexSet.view = .ofMembers (Addition.members additions) := by
    rw [IndexSet.view_eq, members]
  have contains : ∀ i, s.toIndexSet.contains i = decide (i ∈ Addition.members additions) :=
    congrFun (congrArg IndexView.contains view)
  refine ⟨s, ran, s.view_toIndexSet.symm.trans view, ?addition, ?equality, same, view⟩
  case addition =>
    intro i small
    obtain ⟨t, inserted, added, _, more⟩ := fits.exists_insert small
    refine ⟨t, ?_, added, ?_, ?_⟩
    · rw [inserted, ← contains_toIndexSet, contains, decide_not]
    · rw [← view_toIndexSet, IndexSet.view_eq, more, IndexSet.toFinset_insert, members]
    · rw [IndexSet.containsThenInsert, contains, more]
  case equality =>
    intro others othersInRange t othersRan
    obtain ⟨t', ran', fits', same'⟩ := exists_run othersInRange
    obtain rfl := Option.some.inj (ran'.symm.trans othersRan)
    have numbers : s.toIndexSet = t'.toIndexSet ↔ Addition.members additions = Addition.members others := by
      rw [← IndexSet.toFinset_injective.eq_iff, members, same', IndexSet.toFinset_ofList, Addition.members,
        Addition.members]
    refine ⟨?_, numbers⟩
    rw [← numbers]
    exact ⟨congrArg toIndexSet, eq_of_toIndexSet_eq (fits.trans fits'.symm)⟩

/-- Five members in three of the four words, the last word of which is not full. -/
theorem run_refines_four_words :
    (∀ addition ∈ [Addition.inPlace 150, .toCopy 0, .inPlace 63, .inPlace 150, .toCopy 64, .inPlace 7],
      addition.index < 200) ∧
    ∃ s, run 200 [.inPlace 150, .toCopy 0, .inPlace 63, .inPlace 150, .toCopy 64, .inPlace 7] = some s ∧
      s.size = 5 ∧ s.contains 1000 = false ∧ (List.range 7).map s.view.yields =
        [some 0, some 7, some 63, some 64, some 150, none, none] := by
  have inRange : ∀ addition ∈ [Addition.inPlace 150, .toCopy 0, .inPlace 63, .inPlace 150, .toCopy 64, .inPlace 7],
      addition.index < 200 := by decide
  obtain ⟨s, ran, view, _⟩ := run_refines inRange
  have members : Addition.members [.inPlace 150, .toCopy 0, .inPlace 63, .inPlace 150, .toCopy 64, .inPlace 7] =
      [0, 7, 63, 64, 150].toFinset := by decide
  have sorted : ([0, 7, 63, 64, 150] : List Nat).toFinset.sort = [0, 7, 63, 64, 150] :=
    (List.toFinset_sort _ (by decide)).mpr (by decide)
  rw [members] at view
  refine ⟨inRange, s, ran, congrArg IndexView.size view, congrFun (congrArg IndexView.contains view) 1000, ?_⟩
  rw [view, IndexView.ofMembers, sorted]
  rfl

end WordSet

end TwoLevel
