import RuleScript.Match.Precedence

/-!
# Alternatives of an evaluation

An alternative is binary if references and breakpoints lead from it to a sequence of exactly three
rules: left operand, operator, right operand.  The first named rule on the way is its identity and
gives it precedence and pruning.  All other alternatives are operands.  An operand that leads back
to the evaluation stands for any operand of the chain.
-/

namespace RuleScript

/-- What an alternative of an evaluation contributes. -/
inductive Alternative where
  | binary (operator : BinaryOperator)
  | operand (id : RuleId)
  deriving DecidableEq

namespace Alternative

/-- The rule an operand of the chain can come from. -/
def operandRule : Alternative → RuleId
  | binary operator => operator.left
  | operand id => id

def binary? : Alternative → Option BinaryOperator
  | binary operator => some operator
  | operand _ => none

end Alternative

namespace Graph

variable {α : Type}

/-- The operator with the given identity and parts. -/
def operatorOf (g : Graph α) (identity left operator right : RuleId) : BinaryOperator where
  identity := identity
  left := left
  operator := operator
  right := right
  precedence := ((g.rule? identity).map (·.precedence)).getD .zero
  pruning := ((g.rule? identity).map (·.pruning)).getD .none

/-- The operator that `current` leads to within some `steps`, if the way there so far has the
given identity. -/
def operatorFrom? (g : Graph α) : (steps : Nat) → (identity : Option RuleId) →
    (current : RuleId) → Option BinaryOperator
  | 0, _, _ => none
  | steps + 1, identity, current =>
    let identity := identity.or (if g.isNamed current then some current else none)
    match g.kind? current with
    | some (.reference _ (some next)) => g.operatorFrom? steps identity next
    | some (.breakpoint next) => g.operatorFrom? steps identity next
    | some (.sequence [left, operator, right]) =>
      some (g.operatorOf (identity.getD current) left operator right)
    | _ => none

/-- What an alternative contributes.  A way without a cycle visits no rule twice. -/
def classify (g : Graph α) (alternative : RuleId) : Alternative :=
  match g.operatorFrom? (g.size + 1) none alternative with
  | some operator => .binary operator
  | none => .operand alternative

/-- Whether references and breakpoints lead from `current` to `target` within some `steps`. -/
def leadsWithin (g : Graph α) (target : RuleId) : (steps : Nat) → (current : RuleId) → Bool
  | 0, _ => false
  | steps + 1, current =>
    current = target ||
      match (g.kind? current).bind (·.subject?) with
      | some next => g.leadsWithin target steps next
      | none => false

/-- Whether references and breakpoints lead from a rule to `target`. -/
def leadsTo (g : Graph α) (id target : RuleId) : Bool := g.leadsWithin target (g.size + 1) id

end Graph

end RuleScript
