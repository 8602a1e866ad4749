import Mathlib.Data.List.Induction
import TwoLevel.Proofs.Columns
import TwoLevel.Proofs.Combining

/-! A pass of the search as it goes, one pair of implicants after the other. The buckets are taken
two at a time by their numbers. Each implicant of the lower one meets all of the upper one, both
are marked where they merge, and the merge is put into the next column under the number of the
lower bucket. No number is out of range, and the pass comes to the marks of the column and the
column of all merges. -/

set_option autoImplicit false

namespace TwoLevel

/-- Why a search ends without a result. -/
inductive SearchFault where
  | noBucket (index : Nat)
  | minimizer (error : MinimizeError)
  deriving DecidableEq

/-- Add an implicant at the end of the bucket, unless there is one with its pattern. -/
def Bucket.put (bucket : Bucket) (m : Implicant) : Bucket :=
  if bucket.any m.samePattern then bucket else bucket ++ [m]

namespace Column

def access (column : Column) (index : Nat) : Except SearchFault Bucket :=
  if inRange : index < column.length then .ok column[index] else .error (.noBucket index)

/-- Put an implicant into the bucket with the given number. -/
def put (column : Column) (index : Nat) (m : Implicant) : Except SearchFault Column :=
  if index < column.length then .ok (column.modify index (·.put m)) else .error (.noBucket index)

/-- The first column: each implicant goes into the bucket of its weight. -/
def fill (width : Nat) (base : List Implicant) : Except SearchFault Column :=
  base.foldlM (fun column m => column.put m.weight m) (List.replicate (width + 1) [])

end Column

/-- The merges of a pass: the column that they make up, and whether there are any. -/
structure Harvest where
  next : Column
  merged : Bool

namespace Harvest

/-- Two implicants are combined. If they merge, the merge is put into the bucket with the given number. -/
def meet (index : Nat) (low high : Implicant) (found : Harvest) :
    Except SearchFault (Implicant × Implicant × Harvest) :=
  match low.combine high with
  | .error error => .error (.minimizer error)
  | .ok none => .ok (low, high, found)
  | .ok (some combination) =>
    (found.next.put index combination.merged).map fun next => (combination.first, combination.second, ⟨next, true⟩)

/-- An implicant meets those of the upper bucket in their order. -/
def meetBucket (index : Nat) (low : Implicant) (found : Harvest) :
    Bucket → Except SearchFault (Implicant × Bucket × Harvest)
  | [] => .ok (low, [], found)
  | high :: rest => do
    let (low, high, found) ← found.meet index low high
    let (low, rest, found) ← meetBucket index low found rest
    return (low, high :: rest, found)

/-- The implicants of the lower bucket meet the upper bucket one after the other. -/
def meetBuckets (index : Nat) (upper : Bucket) (found : Harvest) :
    Bucket → Except SearchFault (Bucket × Bucket × Harvest)
  | [] => .ok ([], upper, found)
  | low :: rest => do
    let (low, upper, found) ← found.meetBucket index low upper
    let (rest, upper, found) ← meetBuckets index upper found rest
    return (low :: rest, upper, found)

end Harvest

/-- A pass on its way: the column with the marks made so far, and the merges found so far. -/
structure Sweep where
  column : Column
  found : Harvest

/-- The two buckets from the given number on meet. -/
def Sweep.step (sweep : Sweep) (index : Nat) : Except SearchFault Sweep := do
  let lower ← sweep.column.access index
  let upper ← sweep.column.access (index + 1)
  let (lower, upper, found) ← sweep.found.meetBuckets index upper lower
  return ⟨(sweep.column.set index lower).set (index + 1) upper, found⟩

/-- A pass at its start, with an empty bucket for the merges of each pair. -/
def Column.unswept (column : Column) : Sweep := ⟨column, ⟨List.replicate (column.length - 1) [], false⟩⟩

/-- One pass over a column. -/
def Column.sweep (column : Column) : Except SearchFault Sweep :=
  (List.range (column.length - 1)).foldlM Sweep.step column.unswept

namespace Implicant

variable {a b low high m : Implicant}

def mergesWith (a b : Implicant) : Bool := (a.pattern.merge? b.pattern).isSome

/-- The implicant with one more reason for its mark, or without. -/
def markIf (m : Implicant) (flag : Bool) : Implicant := { m with combined := m.combined || flag }

@[simp] theorem markIf_false (m : Implicant) : m.markIf false = m := by
  unfold markIf
  rw [Bool.or_false]

@[simp] theorem markIf_markIf (m : Implicant) (first second : Bool) :
    (m.markIf first).markIf second = m.markIf (first || second) := by
  unfold markIf
  rw [Bool.or_assoc]

-- Marks have no part in merging.
@[simp] theorem mergesWith_markIf (flag : Bool) : (a.markIf flag).mergesWith = a.mergesWith := rfl

@[simp] theorem mergesWith_markIf_right (flag : Bool) : a.mergesWith (b.markIf flag) = a.mergesWith b := rfl

@[simp] theorem merge?_markIf (flag : Bool) : (a.markIf flag).merge? = a.merge? := rfl

@[simp] theorem merge?_markIf_right (flag : Bool) : a.merge? (b.markIf flag) = a.merge? b := rfl

theorem isSome_merge? : (a.merge? b).isSome = a.mergesWith b := Option.isSome_map

end Implicant

namespace Bucket

/-- Putting an implicant at the end keeps the first one of each pattern. -/
theorem put_ofList (l : List Implicant) (m : Implicant) : (ofList l).put m = ofList (l ++ [m]) := by
  have known : (ofList l).any m.samePattern = true ↔ m.pattern ∈ l.map (·.pattern) := by
    have keys : m.pattern ∈ (ofList l).map (·.pattern) ↔ m.pattern ∈ l.map (·.pattern) := mem_keys_distinctOn
    rw [← keys, List.any_eq_true, List.mem_map]
    exact exists_congr fun other => and_congr_right fun _ => beq_iff_eq.trans eq_comm
  unfold put
  unfold ofList at known ⊢
  rw [distinctOn_concat]
  simp only [known]

theorem foldl_put_nil (l : List Implicant) : l.foldl put [] = ofList l := by
  induction l using List.reverseRecOn with
  | nil => rfl
  | append_singleton l m ih => rw [List.foldl_append, ih, List.foldl_cons, List.foldl_nil, put_ofList]

/-- The marks that two neighbours leave, said by merging. -/
theorem mark_eq_map_markIf (below bucket above : Bucket) :
    below.mark bucket above =
      bucket.map fun m => m.markIf (above.any m.mergesWith || below.any (·.mergesWith m)) := by
  rw [mark_eq]
  simp only [Bool.or_assoc]
  rfl

theorem isEmpty_ofList (l : List Implicant) : (ofList l).isEmpty = l.isEmpty := by
  cases l with
  | nil => rfl
  | cons m l =>
    have key : m.pattern ∈ (ofList (m :: l)).map (·.pattern) := mem_keys_distinctOn.mpr List.mem_cons_self
    obtain ⟨kept, member, _⟩ := List.mem_map.mp key
    exact List.isEmpty_eq_false_iff_exists_mem.mpr ⟨kept, member⟩

theorem mark_nil_nil (bucket : Bucket) : mark [] bucket [] = bucket := by
  rw [mark_eq_map_markIf]
  simp

end Bucket

namespace Harvest

variable {width index : Nat} {low high : Implicant} {lower upper : Bucket} {found : Harvest}

/-- The harvest with more merges of one pair of buckets. -/
def add (found : Harvest) (index : Nat) (merges : List Implicant) : Harvest :=
  ⟨found.next.modify index (merges.foldl Bucket.put), found.merged || !merges.isEmpty⟩

@[simp] theorem length_next_add (merges : List Implicant) :
    (found.add index merges).next.length = found.next.length :=
  List.length_modify ..

@[simp] theorem add_nil : found.add index [] = found := by
  have same : found.next.modify index (List.foldl Bucket.put · []) = found.next := List.modify_id index found.next
  unfold add
  simp only [List.isEmpty_nil, Bool.not_true, Bool.or_false]
  exact congrArg (Harvest.mk · _) same

@[simp] theorem add_add (first second : List Implicant) :
    (found.add index first).add index second = found.add index (first ++ second) := by
  have buckets : (found.next.modify index (first.foldl Bucket.put)).modify index (second.foldl Bucket.put) =
      found.next.modify index ((first ++ second).foldl Bucket.put) := by
    rw [List.modify_modify_eq]
    refine congrArg (List.modify found.next index) (funext fun bucket => ?_)
    exact List.foldl_append.symm
  have flags : (found.merged || !first.isEmpty || !second.isEmpty) =
      (found.merged || !(first ++ second).isEmpty) := by
    cases first <;> simp
  exact congrArg₂ Harvest.mk buckets flags

theorem meet_eq (same : low.width = high.width) (inRange : index < found.next.length) :
    found.meet index low high = .ok (low.markIf (low.mergesWith high), high.markIf (low.mergesWith high),
      found.add index (low.merge? high).toList) := by
  unfold meet Implicant.combine
  rw [if_pos same, ← Implicant.isSome_merge?]
  cases low.merge? high with
  | none => simp
  | some m =>
    unfold Column.put
    simp [inRange, Except.map, add, Implicant.markIf]

theorem meetBucket_eq (same : ∀ high ∈ upper, low.width = high.width) (inRange : index < found.next.length) :
    found.meetBucket index low upper = .ok (low.markIf (upper.any low.mergesWith),
      upper.map (fun high => high.markIf (low.mergesWith high)), found.add index (upper.filterMap low.merge?)) := by
  induction upper generalizing low found with
  | nil => simp [meetBucket]
  | cons high rest ih =>
    obtain ⟨here, others⟩ := List.forall_mem_cons.mp same
    have later := @ih (low.markIf (low.mergesWith high)) (found.add index (low.merge? high).toList) others
      (by rwa [length_next_add])
    have merges : (low.merge? high).toList ++ rest.filterMap low.merge? = (high :: rest).filterMap low.merge? := by
      rw [List.filterMap_cons]
      cases low.merge? high <;> rfl
    rw [meetBucket, meet_eq here inRange]
    show (meetBucket _ _ _ rest >>= _) = _
    rw [later, Implicant.mergesWith_markIf, Implicant.merge?_markIf, Implicant.markIf_markIf, add_add, merges]
    rfl

theorem meetBuckets_eq (same : ∀ low ∈ lower, ∀ high ∈ upper, low.width = high.width)
    (inRange : index < found.next.length) :
    found.meetBuckets index upper lower = .ok (lower.map (fun low => low.markIf (upper.any low.mergesWith)),
      upper.map (fun high => high.markIf (lower.any (·.mergesWith high))),
      found.add index (lower.flatMap fun low => upper.filterMap low.merge?)) := by
  induction lower generalizing upper found with
  | nil => simp [meetBuckets]
  | cons low rest ih =>
    obtain ⟨here, others⟩ := List.forall_mem_cons.mp same
    -- The upper bucket has been marked when the next implicant meets it, which changes no merge.
    have later := @ih (upper.map fun high => high.markIf (low.mergesWith high))
      (found.add index (upper.filterMap low.merge?))
      (fun a listed => List.forall_mem_map.mpr fun high member => others a listed high member)
      (by rwa [length_next_add])
    rw [meetBuckets, meetBucket_eq here inRange]
    show (meetBuckets _ _ _ rest >>= _) = _
    rw [later, add_add]
    simp [Function.comp_def]

/-- The lower bucket of a pair has met the one below it, and its marks change nothing for the upper one. -/
theorem meetBuckets_mark (below : Bucket) (same : ∀ low ∈ lower, ∀ high ∈ upper, low.width = high.width)
    (inRange : index < found.next.length) :
    found.meetBuckets index upper (below.mark lower []) =
      .ok (below.mark lower upper, lower.mark upper [],
        found.add index (lower.flatMap fun low => upper.filterMap low.merge?)) := by
  have marked : ∀ low ∈ below.mark lower [], ∀ high ∈ upper, low.width = high.width := by
    rw [Bucket.mark_eq_map_markIf, List.forall_mem_map]
    exact same
  rw [meetBuckets_eq marked inRange]
  simp [Bucket.mark_eq_map_markIf, List.flatMap_map, Function.comp_def, Bool.or_comm]

end Harvest

namespace Column

variable {width n : Nat} {column : Column} {sweep : Sweep}

section Buckets

theorem access_eq {index : Nat} (inRange : index < column.length) :
    column.access index = .ok (column.bucketAt index) := by
  simp [access, bucketAt, inRange]

theorem bucketAt_set {index : Nat} (inRange : index < column.length) (bucket : Bucket) (j : Nat) :
    Column.bucketAt (column.set index bucket) j = if j = index then bucket else column.bucketAt j := by
  unfold bucketAt
  rw [List.getElem?_set]
  grind

theorem bucketAt_modify {index : Nat} (inRange : index < column.length) (f : Bucket → Bucket) (j : Nat) :
    Column.bucketAt (column.modify index f) j = if j = index then f (column.bucketAt j) else column.bucketAt j := by
  unfold bucketAt
  rw [List.getElem?_modify]
  grind

theorem ext_bucketAt {other : Column} (lengths : column.length = other.length)
    (buckets : ∀ j, column.bucketAt j = other.bucketAt j) : column = other := by
  refine List.ext_getElem lengths fun j here there => ?_
  have same := buckets j
  simpa [bucketAt, here, there] using same

/-- The bucket below the first one is empty. -/
theorem bucketAt_markFrom (below : Bucket) (column : Column) (j : Nat) :
    (column.markFrom below).bucketAt j =
      (Column.bucketAt (below :: column) j).mark (column.bucketAt j) (column.bucketAt (j + 1)) := by
  induction column generalizing below j with
  | nil => simp [markFrom, bucketAt, Bucket.mark_eq]
  | cons bucket rest ih =>
    cases j with
    | zero => cases rest <;> rfl
    | succ j => exact ih bucket j

end Buckets

/-- The bucket with the marks that are made when the first `n` pairs of buckets have met. -/
def sweptBucket (column : Column) (n j : Nat) : Bucket :=
  let below := if j ≤ n then bucketAt ([] :: column) j else []
  let above := if j < n then column.bucketAt (j + 1) else []
  below.mark (column.bucketAt j) above

/-- The state of a pass in which the first `n` pairs of buckets have met. -/
structure Swept (column : Column) (n : Nat) (sweep : Sweep) : Prop where
  length_eq : sweep.column.length = column.length
  buckets : ∀ j, sweep.column.bucketAt j = column.sweptBucket n j
  length_next : sweep.found.next.length = column.length - 1
  next : ∀ j, sweep.found.next.bucketAt j = if j < n then column.next.bucketAt j else []
  merged_iff : sweep.found.merged = true ↔ ∃ j, j < n ∧ column.next.bucketAt j ≠ []

section Marks

/-- Of the pair that meets next, the lower bucket has met the one below it, and the upper one none. -/
theorem sweptBucket_self (column : Column) (n : Nat) :
    column.sweptBucket n n = Bucket.mark (bucketAt ([] :: column) n) (column.bucketAt n) [] := by
  unfold sweptBucket
  rw [if_pos (Nat.le_refl n), if_neg (Nat.lt_irrefl n)]

theorem sweptBucket_succ_right (column : Column) (n : Nat) :
    column.sweptBucket n (n + 1) = column.bucketAt (n + 1) := by
  unfold sweptBucket
  rw [if_neg (Nat.not_succ_le_self n), if_neg (Nat.not_succ_lt_self), Bucket.mark_nil_nil]

theorem sweptBucket_of_ne {j : Nat} (notLower : j ≠ n) (notUpper : j ≠ n + 1) :
    column.sweptBucket (n + 1) j = column.sweptBucket n j := by
  have below : j ≤ n + 1 ↔ j ≤ n := by omega
  have above : j < n + 1 ↔ j < n := by omega
  unfold sweptBucket
  simp only [below, above]

theorem sweptBucket_lower (column : Column) (n : Nat) :
    column.sweptBucket (n + 1) n =
      Bucket.mark (bucketAt ([] :: column) n) (column.bucketAt n) (column.bucketAt (n + 1)) := by
  unfold sweptBucket
  rw [if_pos (Nat.le_succ n), if_pos (Nat.lt_succ_self n)]

theorem sweptBucket_upper (column : Column) (n : Nat) :
    column.sweptBucket (n + 1) (n + 1) = Bucket.mark (column.bucketAt n) (column.bucketAt (n + 1)) [] := by
  unfold sweptBucket
  rw [if_pos (Nat.le_refl _), if_neg (Nat.lt_irrefl _)]
  rfl

/-- When all pairs have met, each bucket has met both neighbours. -/
theorem sweptBucket_all (column : Column) (j : Nat) :
    column.sweptBucket (column.length - 1) j = column.mark.bucketAt j := by
  rw [mark, bucketAt_markFrom]
  rcases Nat.lt_or_ge j column.length with inRange | beyond
  · have above : (if j < column.length - 1 then column.bucketAt (j + 1) else []) = column.bucketAt (j + 1) := by
      split
      · rfl
      · exact (bucketAt_of_le (by omega)).symm
    unfold sweptBucket
    rw [if_pos (by omega), above]
  · unfold sweptBucket
    simp [bucketAt_of_le beyond, Bucket.mark_eq]

end Marks

/-- The column has implicants of one width only. -/
def Uniform (width : Nat) (column : Column) : Prop := ∀ j, ∀ m ∈ column.bucketAt j, m.width = width

theorem swept_zero (column : Column) : column.Swept 0 column.unswept where
  length_eq := rfl
  buckets := fun j => by
    unfold sweptBucket
    cases j with
    | zero => exact (Bucket.mark_nil_nil _).symm
    | succ j => exact (Bucket.mark_nil_nil _).symm
  length_next := List.length_replicate
  next := fun j => by
    simp [unswept, bucketAt, List.getElem?_replicate]
    split <;> rfl
  merged_iff := by simp [unswept]

/-- The merges of a pair in the order in which they are found. -/
def meetings (column : Column) (n : Nat) : List Implicant :=
  (column.bucketAt n).flatMap fun low => (column.bucketAt (n + 1)).filterMap low.merge?

theorem foldl_put_meetings (column : Column) (n : Nat) :
    (column.meetings n).foldl Bucket.put [] = column.next.bucketAt n := by
  rw [Bucket.foldl_put_nil, bucketAt_next, Bucket.merges_eq]
  rfl

theorem isEmpty_meetings (column : Column) (n : Nat) :
    (column.meetings n).isEmpty = (column.next.bucketAt n).isEmpty := by
  rw [← foldl_put_meetings, Bucket.foldl_put_nil, Bucket.isEmpty_ofList]

/-- The state in which a pass over the column is when its next pair has met too. -/
def following (column : Column) (n : Nat) (sweep : Sweep) : Sweep where
  column := (sweep.column.set n (column.sweptBucket (n + 1) n)).set (n + 1) (column.sweptBucket (n + 1) (n + 1))
  found := sweep.found.add n (column.meetings n)

/-- The next pair of buckets exists, and so does the bucket for its merges. -/
theorem Swept.step_eq (swept : column.Swept n sweep) (uniform : column.Uniform width)
    (more : n + 1 < column.length) : sweep.step n = .ok (column.following n sweep) := by
  have length_eq := swept.length_eq
  have length_next := swept.length_next
  have lower : sweep.column.access n = .ok (Bucket.mark (bucketAt ([] :: column) n) (column.bucketAt n) []) := by
    rw [access_eq (by omega), swept.buckets, sweptBucket_self]
  have upper : sweep.column.access (n + 1) = .ok (column.bucketAt (n + 1)) := by
    rw [access_eq (by omega), swept.buckets, sweptBucket_succ_right]
  have same : ∀ low ∈ column.bucketAt n, ∀ high ∈ column.bucketAt (n + 1), low.width = high.width :=
    fun low first high second => (uniform n low first).trans (uniform (n + 1) high second).symm
  unfold Sweep.step following
  rw [lower, upper, sweptBucket_lower, sweptBucket_upper]
  show (Harvest.meetBuckets _ _ _ _ >>= _) = _
  rw [Harvest.meetBuckets_mark _ same (by omega)]
  rfl

theorem Swept.succ (swept : column.Swept n sweep) (more : n + 1 < column.length) :
    column.Swept (n + 1) (column.following n sweep) where
  length_eq := by simpa [following] using swept.length_eq
  buckets := fun j => by
    have length_eq := swept.length_eq
    unfold following
    rw [bucketAt_set (by rw [List.length_set]; omega), bucketAt_set (by omega), swept.buckets]
    split
    · rename_i here
      rw [here]
    · split
      · rename_i here
        rw [here]
      · rename_i notUpper notLower
        exact (sweptBucket_of_ne notLower notUpper).symm
  length_next := (Harvest.length_next_add _).trans swept.length_next
  next := fun j => by
    have length_next := swept.length_next
    show Column.bucketAt (List.modify _ _ _) j = _
    rw [bucketAt_modify (by omega), swept.next]
    by_cases here : j = n
    · subst here
      rw [if_pos rfl, if_neg (Nat.lt_irrefl j), if_pos (Nat.lt_succ_self j), foldl_put_meetings]
    · have others : j < n + 1 ↔ j < n := by omega
      simp only [if_neg here, others]
  merged_iff := by
    show (sweep.found.merged || !(column.meetings n).isEmpty) = true ↔ _
    rw [Bool.or_eq_true, swept.merged_iff, isEmpty_meetings, Bool.not_eq_true', List.isEmpty_eq_false_iff]
    simp only [Nat.lt_succ_iff_lt_or_eq, or_and_right, exists_or, exists_eq_left]

/-- Pair after pair meets, as long as there is one. -/
theorem exists_swept (uniform : column.Uniform width) (inRange : n ≤ column.length - 1) :
    ∃ sweep, (List.range n).foldlM Sweep.step column.unswept = .ok sweep ∧ column.Swept n sweep := by
  induction n with
  | zero => exact ⟨_, rfl, column.swept_zero⟩
  | succ n ih =>
    obtain ⟨sweep, passed, swept⟩ := ih (Nat.le_of_succ_le inRange)
    have more : n + 1 < column.length := by omega
    refine ⟨_, ?_, swept.succ more⟩
    rw [List.range_succ, List.foldlM_append, passed]
    exact (bind_pure _).trans (swept.step_eq uniform more)

section Ends

theorem length_mark (column : Column) : column.mark.length = column.length := by
  have anywhere : ∀ below, (column.markFrom below).length = column.length := by
    induction column with
    | nil => exact fun _ => rfl
    | cons bucket rest ih => exact fun _ => congrArg (· + 1) (ih bucket)
  exact anywhere []

theorem isEmpty_iff : column.isEmpty = true ↔ ∀ j, column.bucketAt j = [] := by
  rw [isEmpty, List.all_eq_true]
  constructor
  · intro empty j
    unfold bucketAt
    cases found : column[j]? with
    | none => rfl
    | some bucket => exact List.isEmpty_iff.mp (empty bucket (List.mem_of_getElem? found))
  · intro empty bucket member
    obtain ⟨j, found⟩ := List.mem_iff_getElem?.mp member
    have here := empty j
    rw [bucketAt, found] at here
    exact List.isEmpty_iff.mpr here

end Ends

/-- A pass finds every bucket that it looks for, and ends with the marks of the column and the
column of all merges. -/
theorem sweep_eq (uniform : column.Uniform width) :
    column.sweep = .ok ⟨column.mark, ⟨column.next, !column.next.isEmpty⟩⟩ := by
  obtain ⟨⟨after, found, merged⟩, passed, swept⟩ := exists_swept uniform (Nat.le_refl _)
  have marks : after = column.mark :=
    ext_bucketAt (swept.length_eq.trans (length_mark column).symm) fun j =>
      (swept.buckets j).trans (sweptBucket_all column j)
  have beyond : ∀ j, ¬j < column.length - 1 → column.next.bucketAt j = [] :=
    fun j outside => bucketAt_of_le (by rw [length_next]; exact Nat.le_of_not_lt outside)
  have nexts : found = column.next := by
    refine ext_bucketAt (swept.length_next.trans (length_next column).symm) fun j => (swept.next j).trans ?_
    split
    · rfl
    · rename_i outside
      exact (beyond j outside).symm
  have flag : merged = !column.next.isEmpty := by
    rw [Bool.eq_iff_iff, Bool.not_eq_true', Bool.eq_false_iff, Ne, isEmpty_iff, not_forall]
    refine swept.merged_iff.trans (exists_congr fun j => and_iff_right_of_imp fun filled => ?_)
    exact Decidable.not_not.mp (mt (beyond j) filled)
  unfold sweep
  rw [passed, marks, nexts, flag]

theorem initial_concat {base : List Implicant} {m : Implicant} (light : m.weight ≤ width) :
    initial width (base ++ [m]) = List.modify (initial width base) m.weight (·.put m) := by
  refine ext_bucketAt (by simp [initial]) fun j => ?_
  have inRange : m.weight < (initial width base).length := by simpa [initial] using Nat.lt_succ_of_le light
  rw [bucketAt_modify inRange]
  rcases Nat.lt_or_ge j (width + 1) with small | large
  · rw [bucketAt_initial _ small, bucketAt_initial _ small, List.filter_append]
    by_cases here : j = m.weight
    · simp [here, Bucket.put_ofList]
    · simp [here, Ne.symm here]
  · have beyond : ∀ base : List Implicant, (initial width base).bucketAt j = [] :=
      fun base => bucketAt_of_le (by simpa [initial] using large)
    rw [if_neg (by omega), beyond, beyond]

/-- The bucket of every weight up to the width exists. -/
theorem fill_eq {base : List Implicant} (light : ∀ m ∈ base, m.weight ≤ width) :
    fill width base = .ok (initial width base) := by
  induction base using List.reverseRecOn with
  | nil =>
    have empty : List.replicate (width + 1) [] = initial width [] := by
      show _ = (List.range (width + 1)).map fun _ => []
      simp
    exact congrArg Except.ok empty
  | append_singleton base m ih =>
    obtain ⟨others, last⟩ := List.forall_mem_append.mp light
    have lightest := List.forall_mem_singleton.mp last
    have inRange : m.weight < (initial width base).length := by simpa [initial] using Nat.lt_succ_of_le lightest
    have filled := ih others
    unfold fill at filled ⊢
    rw [List.foldlM_append, filled, initial_concat lightest]
    show ((initial width base).put m.weight m >>= pure) = _
    rw [put, if_pos inRange]
    rfl

end Column

end TwoLevel
