import Std.Data.HashMap
import TwoLevel.Distinct
import TwoLevel.Implicant.Basic

/-! Buckets of implicants. Two implicants merge only if the same variables take part in
both, so the partners of an implicant are looked for on one shelf of a bucket, which
holds the implicants with the same support. `merges_eq` and `mark_eq` say that this is
the same as looking through the whole bucket. -/

set_option autoImplicit false

namespace TwoLevel

/-- Implicants with the same number of asserted variables. -/
abbrev Bucket := List Implicant

namespace Bucket

/-- The bucket of the implicants of a list. Of those with the same pattern the first is kept. -/
def ofList (l : List Implicant) : Bucket := distinctOn Implicant.pattern l

/-- The implicants of a bucket by their support, those of one support in their order. -/
def shelves (bucket : Bucket) : Std.HashMap (List Bool) Bucket :=
  bucket.foldr (fun m sorted => sorted.insert m.pattern.support (m :: sorted.getD m.pattern.support [])) ∅

theorem getD_shelves (bucket : Bucket) (support : List Bool) :
    bucket.shelves.getD support [] = bucket.filter (·.pattern.support == support) := by
  induction bucket with
  | nil => exact Std.HashMap.getD_empty
  | cons m rest ih =>
    simp only [shelves, List.foldr_cons] at ih ⊢
    rw [Std.HashMap.getD_insert, List.filter_cons, ih]
    split
    · rename_i same
      rw [eq_of_beq same, ih]
    · rfl

/-- The implicants of a bucket that may merge with `m`. -/
def partners (sorted : Std.HashMap (List Bool) Bucket) (m : Implicant) : Bucket :=
  sorted.getD m.pattern.support []

theorem partners_shelves (bucket : Bucket) (m : Implicant) :
    partners bucket.shelves m = bucket.filter (·.pattern.support == m.pattern.support) :=
  getD_shelves bucket m.pattern.support

/-- Two implicants that merge, with the pattern of the merge. -/
structure Merge where
  low : Implicant
  high : Implicant
  pattern : Pattern

def Merge.result (merge : Merge) : Implicant := merge.low.unite merge.high merge.pattern

/-- All merges of an implicant of the lower bucket with one of the upper bucket. Rows are
united only for the merges that are kept. -/
def merges (lower upper : Bucket) : Bucket :=
  let sorted := upper.shelves
  let found := lower.flatMap fun low => (partners sorted low).filterMap fun high =>
    (low.pattern.merge? high.pattern).map (Merge.mk low high)
  (distinctOn Merge.pattern found).map Merge.result

/-- Mark the implicants that merge with one of the bucket below or above. -/
def mark (below bucket above : Bucket) : Bucket :=
  let lower := below.shelves
  let upper := above.shelves
  bucket.map fun m =>
    { m with combined := m.combined || (partners upper m).any (fun high => (m.pattern.merge? high.pattern).isSome) ||
        (partners lower m).any (fun low => (low.pattern.merge? m.pattern).isSome) }

theorem merges_eq (lower upper : Bucket) :
    merges lower upper = ofList (lower.flatMap fun low => upper.filterMap low.merge?) := by
  rw [merges]
  refine (distinctOn_map Implicant.pattern Merge.result _).symm.trans (congrArg ofList ?_)
  simp only [partners_shelves, List.filterMap_filter, List.map_flatMap, List.map_filterMap]
  refine congrArg (List.flatMap · lower) (funext fun low => ?_)
  refine congrArg (List.filterMap · upper) (funext fun high => ?_)
  split
  · exact Option.map_map ..
  · rename_i different
    refine Eq.symm (Option.map_eq_none_iff.mpr (Option.eq_none_iff_forall_ne_some.mpr fun pattern merged => ?_))
    exact different (beq_iff_eq.mpr (Pattern.support_eq_of_merge? merged).symm)

theorem mark_eq (below bucket above : Bucket) :
    mark below bucket above = bucket.map fun m =>
      { m with combined := m.combined || above.any (fun high => (m.pattern.merge? high.pattern).isSome) ||
          below.any (fun low => (low.pattern.merge? m.pattern).isSome) } := by
  have only : ∀ (others : Bucket) (m : Implicant) (test : Implicant → Bool),
      (∀ other, test other = true → other.pattern.support = m.pattern.support) →
      (partners others.shelves m).any test = others.any test := by
    intro others m test same
    rw [partners_shelves, List.any_filter]
    refine congrArg (List.any others) (funext fun other => ?_)
    cases found : test other with
    | false => simp
    | true => simp [same other found]
  simp only [mark]
  refine List.map_congr_left fun m _ => ?_
  rw [only above m _ fun high found => ?_, only below m _ fun low found => ?_]
  · obtain ⟨_, merged⟩ := Option.isSome_iff_exists.mp found
    exact Pattern.support_eq_of_merge? merged
  · obtain ⟨_, merged⟩ := Option.isSome_iff_exists.mp found
    exact (Pattern.support_eq_of_merge? merged).symm

end Bucket

end TwoLevel
