import TwoLevel.Proofs.Parsing
import TwoLevel.Proofs.Printing
import TwoLevel.Proofs.Splicing

/-! Reading a printed expression. The text leaves out parentheses around an operand with the
operator of its parent, so reading splices that operand into the parent. Nothing else changes,
and evaluation stays the same. -/

set_option autoImplicit false

namespace TwoLevel.Expr

/-- The node can be written: an operator has operands, and a name is read as it stands. -/
def PrintableNode : Expr → Prop
  | .var name => PlainName name
  | .nary _ es => es ≠ []
  | _ => True

variable {op : Op} {tokens : List Token} {e e' : Expr} {es : List Expr}

namespace Derives

/-- A chain stands without parentheses under an operator that binds looser. -/
theorem operand_of_chain {inner outer : Op} (tighter : outer.strength < inner.strength)
    (derives : Derives (.chain inner) tokens e) : Derives (.operand outer) tokens e := by
  cases outer with
  | or =>
    cases inner with
    | or => exact absurd tighter (by decide)
    | xor => exact derives
    | and => exact chain_of_operand .xor derives
  | xor =>
    cases inner with
    | or => exact absurd tighter (by decide)
    | xor => exact absurd tighter (by decide)
    | and => exact derives
  | and => cases inner <;> exact absurd tighter (by decide)

theorem whole_of_chain (derives : Derives (.chain op) tokens e) : Derives (.chain .or) tokens e := by
  cases op with
  | or => exact derives
  | xor => exact chain_of_operand .or (derives.operand_of_chain (by decide))
  | and => exact chain_of_operand .or (derives.operand_of_chain (by decide))

theorem operand_of_negation (derives : Derives .negation tokens e) (op : Op) :
    Derives (.operand op) tokens e := by
  have chain : Derives (.chain .and) tokens e := chain_of_operand .and derives
  cases op with
  | or => exact chain.operand_of_chain (by decide)
  | xor => exact chain.operand_of_chain (by decide)
  | and => exact derives

theorem whole_of_negation (derives : Derives .negation tokens e) : Derives (.chain .or) tokens e :=
  chain_of_operand .or (derives.operand_of_negation .or)

end Derives

/-- In its place the expression is written as a phrase that restores it. -/
def PrintsAs (phrase : Phrase) (place : Place) (e : Expr) : Prop :=
  ∃ tokens e', ReadsAs (print place e) tokens ∧ Derives phrase tokens e' ∧ Restores e' e

/-- The text is read as operands that can stand for the given ones. -/
def PrintsOperands (op : Op) (text : List Char) (es : List Expr) : Prop :=
  ∃ tokens es', ReadsAs text tokens ∧ Operands op tokens es' ∧ Replaces op es' es

/-- The expression can be read back wherever it stands. -/
structure PrintsBack (e : Expr) : Prop where
  top : PrintsAs (.chain .or) .top e
  negated : PrintsAs .negation .negated e
  operand : ∀ op, PrintsOperands op (print (.operandOf op) e) [e]

/-- Constants, variables and negations are written alike in every place, and never spliced. -/
theorem PrintsBack.of_negation (reads : ∀ place, ReadsAs (print place e) tokens)
    (derives : Derives .negation tokens e') (restores : Restores e' e)
    (other : ∀ op operands, e.splice ≠ .nary op operands) : PrintsBack e where
  top := ⟨tokens, e', reads .top, derives.whole_of_negation, restores⟩
  negated := ⟨tokens, e', reads .negated, derives, restores⟩
  operand := by
    intro op
    have operands := Operands.single (derives.operand_of_negation op)
    exact ⟨tokens, [e'], reads (.operandOf op), operands, restores.replaces (other op)⟩

theorem printsOperands_all (op : Op) (nonempty : es ≠ []) (each : ∀ e ∈ es, PrintsBack e) :
    PrintsOperands op ((separator op).intercalate (printAll (.operandOf op) es)) es := by
  induction es with
  | nil => exact absurd rfl nonempty
  | cons e rest ih =>
    obtain ⟨head, tail⟩ := List.forall_mem_cons.mp each
    cases rest with
    | nil =>
      rw [printAll, printAll, List.intercalate_singleton]
      exact head.operand op
    | cons next rest =>
      obtain ⟨tokens, es', reads, operands, replaces⟩ := head.operand op
      obtain ⟨tokens', es'', reads', operands', replaces'⟩ := ih (List.cons_ne_nil next rest) tail
      rw [printAll, printAll, List.intercalate_cons_cons]
      rw [printAll] at reads'
      exact ⟨_, _, reads.joined reads', operands.append operands', replaces.append replaces'⟩

theorem PrintsBack.nary (nonempty : es ≠ []) (each : ∀ e ∈ es, PrintsBack e) : PrintsBack (.nary op es) := by
  obtain ⟨tokens, es', reads, operands, replaces⟩ := printsOperands_all op nonempty each
  have restores := replaces.restores
  have enclosed : Derives .negation (.opening :: tokens ++ [.closing]) (ofOperands op es') :=
    .positive (.parens operands.derives.whole_of_chain)
  constructor
  case top =>
    refine ⟨tokens, _, ?_, operands.derives.whole_of_chain, restores⟩
    rw [print]
    exact reads
  case negated =>
    refine ⟨_, _, ?_, enclosed, restores⟩
    rw [print]
    exact reads.parens
  case operand =>
    intro parent
    rw [print, Place.encloses, enclose]
    by_cases same : op = parent
    · -- Under its own operator the node is written without parentheses, and its operands join the chain.
      subst same
      rw [decide_eq_false (Nat.lt_irrefl _)]
      exact ⟨tokens, es', reads, operands, replaces.of_nary nonempty⟩
    · have other : ∀ others, splice (.nary op es) ≠ .nary parent others := splice_nary_ne same
      by_cases looser : op.strength < parent.strength
      · rw [decide_eq_true looser]
        exact ⟨_, _, reads.parens, .single (enclosed.operand_of_negation parent), restores.replaces other⟩
      · rw [decide_eq_false looser]
        have tighter := Nat.lt_of_le_of_ne (Nat.le_of_not_lt looser) fun equal => same (Op.strength_inj equal.symm)
        exact ⟨_, _, reads, .single (operands.derives.operand_of_chain tighter), restores.replaces other⟩

theorem printsBack_of_printable (printable : Throughout PrintableNode e) : PrintsBack e := by
  induction e with
  | const value =>
    refine .of_negation (fun place => ?_) (.positive (.const value)) (.self rfl) nofun
    rw [print]
    exact readsAs_const value
  | var name =>
    cases printable with
    | var plain =>
      refine .of_negation (fun place => ?_) (.positive (.name name)) (.self rfl) nofun
      rw [print]
      exact plain.readsAs
  | not e ih =>
    cases printable with
    | not _ operand =>
      obtain ⟨tokens, e', reads, derives, restores⟩ := (ih operand).negated
      refine .of_negation (fun place => ?_) (.not derives) restores.not nofun
      rw [print]
      exact readsAs_not.spaced reads
  | nary op es ih =>
    cases printable with
    | nary nonempty operands => exact .nary nonempty fun e member => ih e member (operands e member)

theorem exists_ofString_text (printable : Throughout PrintableNode e) :
    ∃ e', ofString e.text = .ok e' ∧ Restores e' e := by
  obtain ⟨tokens, e', reads, derives, restores⟩ := (printsBack_of_printable printable).top
  refine ⟨e', ?_, restores⟩
  unfold ofString text
  rw [String.toList_ofList]
  exact parse_eq_ok_iff.mpr ⟨tokens, reads.splits, derives⟩

/-- An expression that can be written is read back from its text with the same evaluation under
any known values. If every operator has two operands at least, it comes back with each node
spliced into a parent with the same operator, and unchanged where there is none to splice. -/
theorem ofString_text (e : Expr) (printable : Throughout PrintableNode e) :
    ∃ e', ofString e.text = .ok e' ∧ (∀ lookup, e'.eval lookup = e.eval lookup) ∧
      (Throughout WideNode e → e' = e.splice ∧ (Throughout UnnestedNode e → e' = e)) := by
  obtain ⟨e', read, restores⟩ := exists_ofString_text printable
  refine ⟨e', read, restores.same, fun wide => ⟨restores.spliced wide, fun unnested => ?_⟩⟩
  rw [restores.spliced wide, splice_eq_self unnested]

theorem ofString_text_alternating :
    ofString (text (.nary .and [.nary .or [.var "A", .var "B_2"], .not (.const true)])) =
      .ok (.nary .and [.nary .or [.var "A", .var "B_2"], .not (.const true)]) := by
  have nameA : PlainName "A" := ⟨⟨'A', [], rfl, by decide, nofun⟩, by decide⟩
  have nameB : PlainName "B_2" := ⟨⟨'B', ['_', '2'], rfl, by decide, by simp [IsPlain]⟩, by decide⟩
  have both {p : Expr → Prop} {op : Op} {first second : Expr} (holds : p (.nary op [first, second]))
      (left : Throughout p first) (right : Throughout p second) : Throughout p (.nary op [first, second]) :=
    .nary holds (List.forall_mem_cons.mpr ⟨left, List.forall_mem_singleton.mpr right⟩)
  obtain ⟨e', read, _, restored⟩ := ofString_text
    (.nary .and [.nary .or [.var "A", .var "B_2"], .not (.const true)])
    (both nofun (both nofun (.var nameA) (.var nameB)) (.not trivial (.const trivial)))
  obtain ⟨_, kept⟩ := restored
    (both (Nat.le_refl 2) (both (Nat.le_refl 2) (.var trivial) (.var trivial)) (.not trivial (.const trivial)))
  have same := kept
    (both (by simp [UnnestedNode]) (both (by simp [UnnestedNode]) (.var trivial) (.var trivial))
      (.not trivial (.const trivial)))
  rw [read, same]

example : ofString (text (.nary .and [.var "A", .nary .and [.var "B", .not (.var "C")]])) =
    .ok (.nary .and [.var "A", .var "B", .not (.var "C")]) := by decide

end TwoLevel.Expr
