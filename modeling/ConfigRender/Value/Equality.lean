import ConfigRender.Value.Basic

/-! # Two equalities of values

`Value.eqv` tells numbers of different types apart; `Value.same` compares numbers by
magnitude, also inside arrays and objects, but not inside blocks.  In both the order of
keys does not count, paths compare by components, and a NaN differs from itself.
-/

namespace ConfigRender.Value

mutual

/-- Equality of values, field by field. -/
def eqv : Value → Value → Bool
  | .null, .null => true
  | .boolean a, .boolean b => a == b
  | .integer a, .integer b => a == b
  | .decimal a, .decimal b => a.eqv b
  | .string a, .string b => a == b
  | .array as, .array bs => eqvList as bs
  | .object as, .object bs => as.length == bs.length && eqvFields as bs
  | .reference a, .reference b => a == b
  | .path a, .path b => a.same b
  | .block a, .block b => eqvBlock a b
  | _, _ => false
termination_by structural v => v

def eqvList : List Value → List Value → Bool
  | [], [] => true
  | a :: as, b :: bs => eqv a b && eqvList as bs
  | _, _ => false
termination_by structural vs => vs

/-- Every field has an equal one under its key. -/
def eqvFields : List (String × Value) → List (String × Value) → Bool
  | [], _ => true
  | (key, a) :: as, bs =>
    (match bs.lookup key with
      | some b => eqv a b
      | none => false) && eqvFields as bs
termination_by structural fs => fs

def eqvBlock : Block → Block → Bool
  | ⟨p, body⟩, other =>
    p == other.path && body.length == other.body.length && eqvFields body other.body
termination_by structural b => b

end

mutual

/-- Equality as the provisioning tool sees it: numbers compare by magnitude. -/
def same : Value → Value → Bool
  | .integer a, .decimal b => (Binary64.ofInt a.toInt).eqv b
  | .decimal a, .integer b => (Binary64.ofInt b.toInt).eqv a
  | .array as, .array bs => sameList as bs
  | .object as, .object bs => as.length == bs.length && sameFields as bs
  | a, b => eqv a b
termination_by structural v => v

def sameList : List Value → List Value → Bool
  | [], [] => true
  | a :: as, b :: bs => same a b && sameList as bs
  | _, _ => false
termination_by structural vs => vs

def sameFields : List (String × Value) → List (String × Value) → Bool
  | [], _ => true
  | (key, a) :: as, bs =>
    (match bs.lookup key with
      | some b => same a b
      | none => false) && sameFields as bs
termination_by structural fs => fs

end

end ConfigRender.Value
