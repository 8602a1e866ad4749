import TwoLevel.Expr.Outline
import TwoLevel.Expr.Value

/-! The outline of an expression can be read in one way only. The spaces before a label tell how
deep its node lies, and the operands of a node are what follows it until a line that lies no
deeper than the node. This holds for operators with any number of operands, as long as no name
of a variable looks like something else. -/

set_option autoImplicit false

namespace TwoLevel.Expr

/-- The labels of the nodes that are no variables. -/
def reservedLabels : List String := ["0", "1", "NOT", "AND", "OR", "XOR"]

/-- The name stands on one line, is not taken for indentation, and is no label of another node. -/
structure OutlineName (name : String) : Prop where
  nonempty : name ≠ ""
  oneLine : '\n' ∉ name.toList
  visible : name.toList.head? ≠ some ' '
  free : name ∉ reservedLabels

instance (name : String) : Decidable (OutlineName name) :=
  decidable_of_iff (name ≠ "" ∧ '\n' ∉ name.toList ∧ name.toList.head? ≠ some ' ' ∧ name ∉ reservedLabels)
    ⟨fun ⟨nonempty, oneLine, visible, free⟩ => ⟨nonempty, oneLine, visible, free⟩,
      fun ⟨nonempty, oneLine, visible, free⟩ => ⟨nonempty, oneLine, visible, free⟩⟩

/-- What the outline shows for the root. -/
def rootLabel : Expr → String
  | .const value => if value then "1" else "0"
  | .var name => name
  | .not _ => notSymbol
  | .nary op _ => op.symbol

def operands : Expr → List Expr
  | .const _ | .var _ => []
  | .not e => [e]
  | .nary _ es => es

theorem outline_eq (depth : Nat) (e : Expr) :
    outline depth e = ⟨depth, e.rootLabel⟩ :: outlineAll (depth + 1) e.operands := by
  cases e with
  | const value => rfl
  | var name => rfl
  | not e => simp [outline, outlineAll, rootLabel, operands]
  | nary op es => rfl

/-- Induction over a tree that need not know which node it is at. -/
theorem induct_operands {motive : Expr → Prop} (node : ∀ e, (∀ operand ∈ e.operands, motive operand) → motive e)
    (e : Expr) : motive e := by
  induction e with
  | const value => exact node _ nofun
  | var name => exact node _ nofun
  | not e ih => exact node _ (List.forall_mem_singleton.mpr ih)
  | nary op es ih => exact node _ ih

theorem mem_occurrences_of_mem_operands {e operand : Expr} {name : String} (member : operand ∈ e.operands)
    (occurs : name ∈ operand.occurrences) : name ∈ e.occurrences := by
  cases e with
  | const value => cases member
  | var name => cases member
  | not e => exact List.mem_singleton.mp member ▸ occurs
  | nary op es =>
    rw [occurrences_nary]
    exact List.mem_flatten.mpr ⟨_, List.mem_map_of_mem member, occurs⟩

section Nodes

variable {e : Expr}

/-- The node with a given label over the given operands. -/
def ofLabel (label : String) (es : List Expr) : Expr :=
  match label, es with
  | "0", _ => .const false
  | "1", _ => .const true
  | "NOT", [e] => .not e
  | "AND", es => .nary .and es
  | "OR", es => .nary .or es
  | "XOR", es => .nary .xor es
  | name, _ => .var name

theorem ofLabel_of_free {name : String} (free : name ∉ reservedLabels) : ofLabel name [] = .var name := by
  simp only [reservedLabels, List.mem_cons, List.not_mem_nil, not_or] at free
  unfold ofLabel
  split <;> simp_all

/-- A node is known by its label and its operands. -/
theorem ofLabel_rootLabel (names : ∀ name ∈ e.occurrences, OutlineName name) : ofLabel e.rootLabel e.operands = e := by
  cases e with
  | const value => cases value <;> rfl
  | var name => exact ofLabel_of_free (names name (List.mem_singleton_self name)).free
  | not e => rfl
  | nary op es => cases op <;> rfl

theorem rootLabel_mem_or (e : Expr) : e.rootLabel ∈ reservedLabels ∨ ∃ name, e = .var name := by
  cases e with
  | const value => cases value <;> exact .inl (by decide)
  | var name => exact .inr ⟨name, rfl⟩
  | not e => exact .inl (show notSymbol ∈ reservedLabels by decide)
  | nary op es => exact .inl (show op.symbol ∈ reservedLabels by cases op <;> decide)

end Nodes

section Trees

/-- Nothing that follows lies deeper than the given depth. -/
def Closes (depth : Nat) (rest : List OutlineLine) : Prop := ∀ line, rest.head? = some line → line.depth ≤ depth

variable {depth : Nat} {rest rest' : List OutlineLine} {es es' : List Expr}

theorem closes_nil : Closes depth [] := nofun

theorem Closes.mono {deeper : Nat} (closes : Closes depth rest) (le : depth ≤ deeper) : Closes deeper rest :=
  fun line first => Nat.le_trans (closes line first) le

/-- The next operand of a node closes the one before it. -/
theorem closes_outlineAll (closes : Closes depth rest) : Closes depth (outlineAll depth es ++ rest) := by
  cases es with
  | nil => exact closes
  | cons e es =>
    intro line first
    rw [outlineAll, outline_eq] at first
    exact Nat.le_of_eq (congrArg OutlineLine.depth (Option.some.inj first)).symm

/-- No operand begins where the outline goes back to a smaller depth. -/
theorem outlineAll_append_ne {e : Expr} (closes : Closes depth rest) :
    outlineAll (depth + 1) (e :: es) ++ rest' ≠ rest := by
  rintro rfl
  rw [outlineAll, outline_eq] at closes
  exact Nat.not_succ_le_self depth (closes _ rfl)

theorem outlineAll_append_inj
    (each : ∀ e ∈ es, ∀ e' ∈ es', ∀ rest rest', Closes (depth + 1) rest → Closes (depth + 1) rest' →
      outline (depth + 1) e ++ rest = outline (depth + 1) e' ++ rest' → e = e' ∧ rest = rest')
    (closes : Closes depth rest) (closes' : Closes depth rest')
    (same : outlineAll (depth + 1) es ++ rest = outlineAll (depth + 1) es' ++ rest') : es = es' ∧ rest = rest' := by
  induction es generalizing es' with
  | nil =>
    cases es' with
    | nil => exact ⟨rfl, same⟩
    | cons e' es' => exact absurd same.symm (outlineAll_append_ne closes)
  | cons e es ih =>
    cases es' with
    | nil => exact absurd same (outlineAll_append_ne closes')
    | cons e' es' =>
      rw [outlineAll, outlineAll, List.append_assoc, List.append_assoc] at same
      -- Where the first operand ends is known, because what follows closes it.
      obtain ⟨rfl, others⟩ := each e List.mem_cons_self e' List.mem_cons_self _ _
        (closes_outlineAll (closes.mono (Nat.le_succ depth))) (closes_outlineAll (closes'.mono (Nat.le_succ depth))) same
      obtain ⟨rfl, following⟩ := ih (fun a aListed b bListed =>
        each a (List.mem_cons_of_mem _ aListed) b (List.mem_cons_of_mem _ bListed)) others
      exact ⟨rfl, following⟩

/-- The lines of a tree determine it and where it ends, for every depth and whatever follows. -/
theorem outline_append_inj {a b : Expr} (aNames : ∀ name ∈ a.occurrences, OutlineName name)
    (bNames : ∀ name ∈ b.occurrences, OutlineName name) (closes : Closes depth rest) (closes' : Closes depth rest')
    (same : outline depth a ++ rest = outline depth b ++ rest') : a = b ∧ rest = rest' := by
  induction a using induct_operands generalizing b depth rest rest' with
  | node a ih =>
    rw [outline_eq, outline_eq, List.cons_append, List.cons_append] at same
    obtain ⟨line, below⟩ := List.cons.inj same
    have label : a.rootLabel = b.rootLabel := congrArg OutlineLine.label line
    obtain ⟨operands, following⟩ := outlineAll_append_inj (fun e eListed e' eListed' rest rest' closes closes' same =>
      ih e eListed (fun name occurs => aNames name (mem_occurrences_of_mem_operands eListed occurs))
        (fun name occurs => bNames name (mem_occurrences_of_mem_operands eListed' occurs)) closes closes' same)
      closes closes' below
    refine ⟨?_, following⟩
    rw [← ofLabel_rootLabel aNames, ← ofLabel_rootLabel bNames, label, operands]

end Trees

section Lines

/-- The end of the indentation and the end of the line can be seen. -/
structure OutlineLine.Readable (line : OutlineLine) : Prop where
  nonempty : line.label ≠ ""
  oneLine : '\n' ∉ line.label.toList
  visible : line.label.toList.head? ≠ some ' '

theorem readable_of_mem_outline {e : Expr} {depth : Nat} (names : ∀ name ∈ e.occurrences, OutlineName name) :
    ∀ line ∈ outline depth e, line.Readable := by
  induction e using induct_operands generalizing depth with
  | node e ih =>
    rw [outline_eq, outlineAll_eq_flatMap]
    refine List.forall_mem_cons.mpr ⟨?_, fun line member => ?_⟩
    · rcases rootLabel_mem_or e with reserved | ⟨name, rfl⟩
      · have readable : ∀ label ∈ reservedLabels,
            label ≠ "" ∧ '\n' ∉ label.toList ∧ label.toList.head? ≠ some ' ' := by decide
        obtain ⟨nonempty, oneLine, visible⟩ := readable _ reserved
        exact ⟨nonempty, oneLine, visible⟩
      · obtain ⟨nonempty, oneLine, visible, _⟩ := names name (List.mem_singleton_self name)
        exact ⟨nonempty, oneLine, visible⟩
    · obtain ⟨operand, listed, here⟩ := List.mem_flatMap.mp member
      exact ih operand listed (fun name occurs => names name (mem_occurrences_of_mem_operands listed occurs)) line here

variable {line line' : OutlineLine} {rest rest' : List Char} {lines lines' : List OutlineLine}

theorem print_append_eq (line : OutlineLine) (rest : List Char) :
    line.print ++ rest = List.replicate (2 * line.depth) ' ' ++ (line.label.toList ++ '\n' :: rest) := by
  simp [OutlineLine.print]

/-- The label does not begin with a space, so the spaces before it are the indentation. -/
theorem takeWhile_print (readable : line.Readable) :
    (line.print ++ rest).takeWhile (· = ' ') = List.replicate (2 * line.depth) ' ' := by
  have spaces : ∀ c ∈ List.replicate (2 * line.depth) ' ', decide (c = ' ') = true :=
    fun c member => decide_eq_true (List.eq_of_mem_replicate member)
  have stops : (line.label.toList ++ '\n' :: rest).takeWhile (· = ' ') = [] := by
    cases label : line.label.toList with
    | nil => exact absurd (String.toList_eq_nil_iff.mp label) readable.nonempty
    | cons c label' =>
      have visible : c ≠ ' ' := fun same => readable.visible (by rw [label, same]; rfl)
      exact List.takeWhile_cons_of_neg (by simpa using visible)
  rw [print_append_eq, List.takeWhile_append_of_pos spaces, stops, List.append_nil]

theorem takeWhile_label (readable : line.Readable) :
    (line.label.toList ++ '\n' :: rest).takeWhile (· ≠ '\n') = line.label.toList := by
  have inLine : ∀ c ∈ line.label.toList, decide (c ≠ '\n') = true :=
    fun c member => decide_eq_true fun same => readable.oneLine (same ▸ member)
  rw [List.takeWhile_append_of_pos inLine, List.takeWhile_cons_of_neg (by decide), List.append_nil]

/-- The first line of a text is determined, and so is what follows it. -/
theorem print_append_inj (readable : line.Readable) (readable' : line'.Readable)
    (same : line.print ++ rest = line'.print ++ rest') : line = line' ∧ rest = rest' := by
  have indents := (takeWhile_print readable).symm.trans ((congrArg _ same).trans (takeWhile_print readable'))
  have depths : line.depth = line'.depth := by
    have lengths := congrArg List.length indents
    rw [List.length_replicate, List.length_replicate] at lengths
    omega
  rw [print_append_eq, print_append_eq, depths] at same
  have labelled := List.append_cancel_left same
  have labels : line.label.toList = line'.label.toList :=
    (takeWhile_label readable).symm.trans ((congrArg _ labelled).trans (takeWhile_label readable'))
  rw [labels] at labelled
  refine ⟨?_, List.tail_eq_of_cons_eq (List.append_cancel_left labelled)⟩
  obtain ⟨depth, label⟩ := line
  obtain ⟨depth', label'⟩ := line'
  obtain rfl : depth = depth' := depths
  obtain rfl : label = label' := String.toList_injective labels
  rfl

theorem print_ne_nil (line : OutlineLine) : line.print ≠ [] :=
  List.append_ne_nil_of_right_ne_nil _ (List.cons_ne_nil _ _)

theorem lines_eq_of_print_eq (readable : ∀ line ∈ lines, line.Readable) (readable' : ∀ line ∈ lines', line.Readable)
    (same : lines.flatMap OutlineLine.print = lines'.flatMap OutlineLine.print) : lines = lines' := by
  induction lines generalizing lines' with
  | nil =>
    cases lines' with
    | nil => rfl
    | cons line' lines' => exact absurd (List.append_eq_nil_iff.mp same.symm).1 (print_ne_nil line')
  | cons line lines ih =>
    cases lines' with
    | nil => exact absurd (List.append_eq_nil_iff.mp same).1 (print_ne_nil line)
    | cons line' lines' =>
      obtain ⟨first, others⟩ := List.forall_mem_cons.mp readable
      obtain ⟨first', others'⟩ := List.forall_mem_cons.mp readable'
      rw [List.flatMap_cons, List.flatMap_cons] at same
      obtain ⟨rfl, following⟩ := print_append_inj first first' same
      rw [ih others others' following]

end Lines

/-- Expressions with the same outline are the same tree, unless the name of a variable hides the
structure of the outline. -/
theorem outlineText_eq_iff {a b : Expr} (aNames : ∀ name ∈ a.occurrences, OutlineName name)
    (bNames : ∀ name ∈ b.occurrences, OutlineName name) : a.outlineText = b.outlineText ↔ a = b := by
  constructor
  · intro same
    have lines : outline 0 a = outline 0 b := lines_eq_of_print_eq (readable_of_mem_outline aNames)
      (readable_of_mem_outline bNames) (String.ofList_injective same)
    exact (outline_append_inj aNames bNames closes_nil closes_nil (congrArg (· ++ []) lines)).1
  · rintro rfl
    rfl

/-- Only the indentation of one line tells whether NOT follows an AND without operands or stands under it. -/
theorem outlineText_eq_iff_empty_operator :
    (∀ name ∈ occurrences (.nary .or [.nary .and [], .not (.var "A B")]), OutlineName name) ∧
      (∀ name ∈ occurrences (.nary .or [.nary .and [.not (.var "A B")]]), OutlineName name) ∧
      outlineText (.nary .or [.nary .and [], .not (.var "A B")]) ≠
        outlineText (.nary .or [.nary .and [.not (.var "A B")]]) := by
  have names : ∀ name ∈ ["A B"], OutlineName name := by decide
  refine ⟨names, names, fun same => ?_⟩
  have equal := (outlineText_eq_iff (a := .nary .or [.nary .and [], .not (.var "A B")])
    (b := .nary .or [.nary .and [.not (.var "A B")]]) names names).mp same
  exact absurd equal (by decide)

-- A name with a line break in it looks like a tree.
example : outlineText (.not (.var "A")) = outlineText (.var "NOT\n  A") := by decide

end TwoLevel.Expr
