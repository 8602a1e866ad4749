import TwoLevel.Expr.Token

/-! The grammar of the language over tokens, stated without a reader. OR binds loosest, then
XOR, AND and NOT. Each phrase is made of tighter ones, and a whole expression stands inside
parentheses. -/

set_option autoImplicit false

namespace TwoLevel.Expr

/-- The kinds of phrases: chains of one operator, negations, and terms. -/
inductive Phrase where
  | chain (op : Op)
  | negation
  | term

/-- What stands on the two sides of an operator. -/
def Phrase.operand : Op → Phrase
  | .or => .chain .xor
  | .xor => .chain .and
  | .and => .negation

/-- The parts one after the other, with the operator between them. -/
def joined (op : Op) (parts : List (List Token)) : List Token := [Token.op op].intercalate parts

/-- The tokens are a phrase of the given kind, which stands for the expression. -/
inductive Derives : Phrase → List Token → Expr → Prop where
  /-- The operands of a chain become one node, where a single operand stands for itself. -/
  | chain (op : Op) (parts : List (List Token × Expr)) (nonempty : parts ≠ [])
    (operands : ∀ part ∈ parts, Derives (.operand op) part.1 part.2) :
    Derives (.chain op) (joined op (parts.map Prod.fst)) (ofOperands op (parts.map Prod.snd))
  | not {tokens : List Token} {e : Expr} (operand : Derives .negation tokens e) :
    Derives .negation (.not :: tokens) (.not e)
  | positive {tokens : List Token} {e : Expr} (term : Derives .term tokens e) : Derives .negation tokens e
  | name (name : String) : Derives .term [.name name] (.var name)
  | const (value : Bool) : Derives .term [.const value] (.const value)
  | parens {tokens : List Token} {e : Expr} (inner : Derives (.chain .or) tokens e) :
    Derives .term (.opening :: tokens ++ [.closing]) e

variable {op : Op} {tokens tokens' : List Token} {es es' : List Expr} {e : Expr}

theorem joined_singleton (part : List Token) : joined op [part] = part := List.intercalate_singleton

theorem joined_cons_cons (part next : List Token) (rest : List (List Token)) :
    joined op (part :: next :: rest) = part ++ .op op :: joined op (next :: rest) := by
  unfold joined
  rw [List.intercalate_cons_cons, List.append_assoc]
  rfl

theorem intercalate_append_of_ne_nil {α : Type} {sep : List α} {first second : List (List α)} (nonempty : first ≠ [])
    (nonempty' : second ≠ []) :
    sep.intercalate (first ++ second) = sep.intercalate first ++ sep ++ sep.intercalate second := by
  induction first with
  | nil => exact absurd rfl nonempty
  | cons part first ih =>
    cases first with
    | nil => rw [List.singleton_append, List.intercalate_singleton, List.intercalate_cons_of_ne_nil nonempty']
    | cons next first =>
      rw [List.cons_append, List.cons_append, List.intercalate_cons_cons, List.intercalate_cons_cons,
        ← List.cons_append, ih nofun]
      simp only [List.append_assoc]

theorem joined_append {first second : List (List Token)} (nonempty : first ≠ []) (nonempty' : second ≠ []) :
    joined op (first ++ second) = joined op first ++ .op op :: joined op second := by
  unfold joined
  rw [intercalate_append_of_ne_nil nonempty nonempty', List.append_assoc]
  rfl

/-- The tokens are the operands with the operator between them, at least one. -/
def Operands (op : Op) (tokens : List Token) (es : List Expr) : Prop :=
  ∃ parts : List (List Token × Expr), parts ≠ [] ∧ (∀ part ∈ parts, Derives (.operand op) part.1 part.2) ∧
    joined op (parts.map Prod.fst) = tokens ∧ parts.map Prod.snd = es

theorem Operands.single (operand : Derives (.operand op) tokens e) : Operands op tokens [e] := by
  refine ⟨[(tokens, e)], nofun, fun part member => ?_, joined_singleton tokens, rfl⟩
  rw [List.mem_singleton.mp member]
  exact operand

theorem Operands.append (first : Operands op tokens es) (second : Operands op tokens' es') :
    Operands op (tokens ++ .op op :: tokens') (es ++ es') := by
  obtain ⟨parts, nonempty, derives, rfl, rfl⟩ := first
  obtain ⟨parts', nonempty', derives', rfl, rfl⟩ := second
  refine ⟨parts ++ parts', fun empty => nonempty (List.append_eq_nil_iff.mp empty).1, ?_, ?_, List.map_append⟩
  · intro part member
    exact (List.mem_append.mp member).elim (derives part) (derives' part)
  · rw [List.map_append, joined_append (mt List.map_eq_nil_iff.mp nonempty) (mt List.map_eq_nil_iff.mp nonempty')]

theorem Operands.derives (operands : Operands op tokens es) :
    Derives (.chain op) tokens (ofOperands op es) := by
  obtain ⟨parts, nonempty, derives, rfl, rfl⟩ := operands
  exact .chain op parts nonempty derives

/-- A phrase that may be an operand is also a chain of its own. -/
theorem Derives.chain_of_operand (op : Op) (operand : Derives (.operand op) tokens e) :
    Derives (.chain op) tokens e := (Operands.single operand).derives

end TwoLevel.Expr
