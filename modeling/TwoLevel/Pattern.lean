import TwoLevel.MinimizeError

/-! Patterns of product terms: for each variable, whether it is negated, asserted or
absent. Two patterns merge when they differ at one variable and both name it; the
merged pattern leaves that variable out, so it admits what either of them admits. -/

set_option autoImplicit false

namespace TwoLevel

/-- How a variable takes part in a product term. -/
inductive Slot where
  | negated
  | asserted
  | absent
  deriving DecidableEq, Hashable, Repr, Inhabited

namespace Slot

/-- Negated comes before asserted, and absent last. -/
def rank : Slot → Nat
  | negated => 0
  | asserted => 1
  | absent => 2

def symbol : Slot → Char
  | negated => '0'
  | asserted => '1'
  | absent => '-'

/-- The slot of a variable that must have the given value. -/
def ofBool (value : Bool) : Slot := if value then asserted else negated

def ofChar? : Char → Option Slot
  | '0' => some negated
  | '1' => some asserted
  | '-' => some absent
  | _ => none

def le (a b : Slot) : Bool := a.rank ≤ b.rank

def admits : Slot → Bool → Bool
  | negated, value => !value
  | asserted, value => value
  | absent, _ => true

end Slot

/-- One slot for each variable. -/
abbrev Pattern := List Slot

namespace Pattern

def ofAssignment (values : List Bool) : Pattern := values.map Slot.ofBool

def text (p : Pattern) : String := String.ofList (p.map Slot.symbol)

def parse : List Char → Except MinimizeError Pattern
  | [] => .ok []
  | c :: rest =>
    match Slot.ofChar? c with
    | none => .error (.notASlot c)
    | some slot => (parse rest).map (slot :: ·)

/-- The number of asserted variables. -/
def weight (p : Pattern) : Nat := p.count .asserted

/-- The number of variables that take part. -/
def literalCount (p : Pattern) : Nat := p.countP (· ≠ .absent)

/-- For each variable, whether it takes part. -/
def support (p : Pattern) : List Bool := p.map (· != .absent)

/-- The assignment has a value for every variable, and each slot allows its value. -/
def admits : Pattern → List Bool → Bool
  | [], [] => true
  | s :: p, value :: values => s.admits value && admits p values
  | _, _ => false

/-- The pattern that leaves out the one variable at which two patterns differ. -/
def merge? : Pattern → Pattern → Option Pattern
  | a :: p, b :: q =>
    if a = b then (merge? p q).map (a :: ·)
    else if a ≠ .absent ∧ b ≠ .absent ∧ p = q then some (.absent :: p)
    else none
  | _, _ => none

/-- In patterns that merge the same variables take part. -/
theorem support_eq_of_merge? {p q r : Pattern} (merged : p.merge? q = some r) : p.support = q.support := by
  induction p generalizing q r with
  | nil => simp [merge?] at merged
  | cons a p ih =>
    cases q with
    | nil => simp [merge?] at merged
    | cons b q =>
      simp only [merge?] at merged
      split at merged
      · rename_i same
        obtain ⟨tail, found, _⟩ := Option.map_eq_some_iff.mp merged
        have tails := ih found
        simp only [support] at tails
        simp [support, same, tails]
      · split at merged
        · rename_i facts
          simp [support, bne_iff_ne.mpr facts.1, bne_iff_ne.mpr facts.2.1, facts.2.2]
        · simp at merged

end Pattern

end TwoLevel
