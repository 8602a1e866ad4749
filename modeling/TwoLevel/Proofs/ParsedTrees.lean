import TwoLevel.Proofs.PrintedForms

/-! The trees that are read. An operator that has been read has two operands at least, and the
name of a variable can be read again, so each such tree can be printed and read back. What comes
back may have nodes spliced into their parents, but it is printed as the same text. -/

set_option autoImplicit false

namespace TwoLevel.Expr

open Text

/-- The node is one that a text can yield: an operator with two operands at least, or a variable
whose name is read as it stands. -/
def ReadableNode : Expr → Prop
  | .var name => PlainName name
  | .nary _ es => 2 ≤ es.length
  | _ => True

variable {op : Op} {word input : List Char} {tokens : List Token} {e : Expr} {es : List Expr} {name : String}

theorem ReadableNode.wide (readable : ReadableNode e) : WideNode e := by
  cases e with
  | nary op es => exact readable
  | _ => trivial

theorem ReadableNode.printable (readable : ReadableNode e) : PrintableNode e := by
  cases e with
  | var name => exact readable
  | nary op es => exact List.ne_nil_of_length_pos (Nat.lt_of_lt_of_le Nat.two_pos readable)
  | _ => trivial

section Reading

theorem isUpperName_of_isName (isName : Token.IsName word) : IsUpperName (String.ofList (upper word)) := by
  obtain ⟨c, rest, letter, others⟩ := isName
  refine ⟨c.toUpper, upper rest, String.toList_ofList, isUpper_toUpper_of_isAlpha letter, ?_⟩
  refine List.forall_mem_map.mpr fun d member => ?_
  rcases others d member with alphanum | rfl
  · exact Definition.isPlain_toUpper alphanum
  · exact .inr (.inr (by decide))

theorem plainName_of_splits (splits : Splits input tokens) (member : Token.name name ∈ tokens) : PlainName name := by
  obtain ⟨word, isName, _, rfl⟩ := exists_word_of_splits splits member
  exact ⟨isUpperName_of_isName isName, not_keyword_of_splits splits member⟩

/-- The operator node over operands is readable as soon as there are operands: a single one makes no node. -/
theorem readable_ofOperands (nonempty : es ≠ []) (each : ∀ e ∈ es, Throughout ReadableNode e) :
    Throughout ReadableNode (ofOperands op es) := by
  match es with
  | [] => exact absurd rfl nonempty
  | [e] => exact each e (List.mem_singleton_self e)
  | e :: next :: rest => exact .nary (Nat.le_add_left 2 rest.length) each

theorem readable_of_derives {phrase : Phrase} (derives : Derives phrase tokens e)
    (plain : ∀ name, Token.name name ∈ tokens → PlainName name) : Throughout ReadableNode e := by
  induction derives with
  | chain op parts nonempty operands ih =>
    apply readable_ofOperands (mt List.map_eq_nil_iff.mp nonempty)
    refine List.forall_mem_map.mpr fun part listed => ih part listed fun name member => ?_
    exact plain name (mem_intercalate_of_mem (List.mem_map_of_mem listed) member)
  | not _ ih => exact .not trivial (ih fun name member => plain name (List.mem_cons_of_mem _ member))
  | positive _ ih => exact ih plain
  | name name => exact .var (plain name (List.mem_singleton_self _))
  | const value => exact .const trivial
  | parens _ ih =>
    exact ih fun name member => plain name (List.mem_cons_of_mem _ (List.mem_append_left _ member))

end Reading

section Splicing

theorem intercalate_flatMap {α β : Type} {sep : List α} {f : β → List (List α)} {l : List β}
    (nonempty : ∀ b ∈ l, f b ≠ []) :
    sep.intercalate (l.flatMap f) = sep.intercalate (l.map fun b => sep.intercalate (f b)) := by
  induction l with
  | nil => rfl
  | cons b l ih =>
    obtain ⟨here, later⟩ := List.forall_mem_cons.mp nonempty
    cases l with
    | nil => rw [List.flatMap_singleton, List.map_singleton, List.intercalate_singleton]
    | cons next l =>
      have nonempty : (next :: l).flatMap f ≠ [] := by
        rw [List.flatMap_cons]
        exact List.append_ne_nil_of_left_ne_nil (later next List.mem_cons_self) _
      rw [List.flatMap_cons, intercalate_append_of_ne_nil here nonempty, ih later]
      exact List.intercalate_cons_cons.symm

theorem operandsUnder_splice_ne_nil (wide : Throughout WideNode e) : operandsUnder op e.splice ≠ [] := by
  induction e with
  | const value => nofun
  | var name => nofun
  | not e _ => nofun
  | nary op' es ih =>
    cases wide with
    | nary two operands =>
      rw [splice_nary, operandsUnder]
      split
      · -- The first operand alone gives the parent something.
        obtain ⟨first, rest, rfl⟩ := List.exists_cons_of_length_pos (Nat.lt_of_lt_of_le Nat.two_pos two)
        rename_i same
        subst same
        rw [List.flatMap_cons]
        exact List.append_ne_nil_of_left_ne_nil
          (ih first List.mem_cons_self (operands first List.mem_cons_self)) _
      · exact List.cons_ne_nil _ _

/-- A node under its own operator is written as its operands are, with the operator between them. -/
theorem intercalate_operandsUnder (op : Op) (e : Expr) :
    (separator op).intercalate ((operandsUnder op e).map (print (.operandOf op))) = print (.operandOf op) e := by
  cases e with
  | nary op' es =>
    rw [operandsUnder]
    split
    · rename_i same
      subst same
      rw [print, Place.encloses, decide_eq_false (Nat.lt_irrefl _), enclose, if_neg Bool.false_ne_true,
        printAll_eq_map]
    · exact List.intercalate_singleton
  | _ => exact List.intercalate_singleton

/-- Splicing cannot be seen in the text. -/
theorem print_splice (wide : Throughout WideNode e) (place : Place) : print place e.splice = print place e := by
  induction e generalizing place with
  | const value => rfl
  | var name => rfl
  | not e ih =>
    cases wide with
    | not _ operand =>
      show print place (.not e.splice) = _
      rw [print, print, ih operand]
  | nary op es ih =>
    cases wide with
    | nary _ operands =>
      have pieces : ∀ e ∈ es, (operandsUnder op e.splice).map (print (.operandOf op)) ≠ [] := fun e member =>
        mt List.map_eq_nil_iff.mp (operandsUnder_splice_ne_nil (operands e member))
      have each : ∀ e ∈ es, (separator op).intercalate ((operandsUnder op e.splice).map (print (.operandOf op))) =
          print (.operandOf op) e := fun e member =>
        (intercalate_operandsUnder op e.splice).trans (ih e member (operands e member) (.operandOf op))
      rw [splice_nary, print, print, printAll_eq_map, printAll_eq_map, List.map_flatMap,
        intercalate_flatMap pieces, List.map_congr_left each]

theorem text_splice (wide : Throughout WideNode e) : e.splice.text = e.text := congrArg String.ofList (print_splice wide .top)

end Splicing

/-- Whatever is read is well formed, so its text can be read again. Then nodes may be spliced into
parents with the same operator, but printing gives the same text from there on. -/
theorem text_stable_of_read (s : String) (e : Expr) (read : ofString s = .ok e) :
    Throughout ReadableNode e ∧ ∃ e', ofString e.text = .ok e' ∧ e' = e.splice ∧ e'.text = e.text := by
  obtain ⟨tokens, splits, derives⟩ := parse_eq_ok_iff.mp read
  have readable := readable_of_derives derives fun name => plainName_of_splits splits
  have wide : Throughout WideNode e := readable.imp fun _ => ReadableNode.wide
  obtain ⟨e', again, restores⟩ := exists_ofString_text (readable.imp fun _ => ReadableNode.printable)
  have spliced : e' = e.splice := restores.spliced wide
  exact ⟨readable, e', again, spliced, spliced ▸ text_splice wide⟩

/-- A conjunction in parentheses under a conjunction: read again it has three operands. -/
theorem text_stable_of_read_nested :
    ofString "(a and b) * !c_1" = .ok (.nary .and [.nary .and [.var "A", .var "B"], .not (.var "C_1")]) ∧
      ofString (text (.nary .and [.nary .and [.var "A", .var "B"], .not (.var "C_1")])) =
        .ok (.nary .and [.var "A", .var "B", .not (.var "C_1")]) := by
  have read : ofString "(a and b) * !c_1" =
      .ok (.nary .and [.nary .and [.var "A", .var "B"], .not (.var "C_1")]) := by decide
  obtain ⟨_, e', again, spliced, _⟩ := text_stable_of_read _ _ read
  subst spliced
  exact ⟨read, again⟩

end TwoLevel.Expr
