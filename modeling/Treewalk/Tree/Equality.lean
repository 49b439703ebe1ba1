import Treewalk.Tree

/-!
# Equality of trees

Two trees are the same when they have the same shape and the same tokens at every node. The test
is `same`; `same_iff` says that it decides equality, which gives the instances.
-/

namespace Treewalk

mutual

/-- Are two expressions the same? -/
def Expr.same : Expr → Expr → Bool
  | .reference a, .reference b => a = b
  | .integer t m, .integer u n => t = u && m = n
  | .boolean t a, .boolean u b => t = u && a = b
  | .unary t op a, .unary u op' b => t = u && op = op' && a.same b
  | .binary t a op b, .binary u a' op' b' => t = u && op = op' && a.same a' && b.same b'
  | .conditional t c a b, .conditional u c' a' b' =>
    t = u && c.same c' && a.same a' && Block.sameIfAny b b'
  | _, _ => false

/-- Are two blocks the same? -/
def Block.same : Block → Block → Bool
  | ⟨t, a⟩, ⟨u, b⟩ => t = u && Stmt.sameAll a b

/-- Are two blocks both missing, or the same? -/
def Block.sameIfAny : Option Block → Option Block → Bool
  | none, none => true
  | some a, some b => a.same b
  | _, _ => false

/-- Are two statements the same? -/
def Stmt.same : Stmt → Stmt → Bool
  | .binding t x a, .binding u y b => t = u && x = y && Expr.sameIfAny a b
  | .result t a, .result u b => t = u && Expr.sameIfAny a b
  | .expression t a, .expression u b => t = u && a.same b
  | .block a, .block b => a.same b
  | _, _ => false

/-- Are two expressions both missing, or the same? -/
def Expr.sameIfAny : Option Expr → Option Expr → Bool
  | none, none => true
  | some a, some b => a.same b
  | _, _ => false

/-- Are two lists of statements the same? -/
def Stmt.sameAll : List Stmt → List Stmt → Bool
  | [], [] => true
  | a :: as, b :: bs => a.same b && Stmt.sameAll as bs
  | _, _ => false

end

mutual

theorem Expr.same_iff : ∀ a b : Expr, a.same b = true ↔ a = b
  | .reference a, b => by cases b <;> simp [Expr.same]
  | .integer t m, b => by cases b <;> simp [Expr.same]
  | .boolean t a, b => by cases b <;> simp [Expr.same]
  | .unary t op a, b => by
    cases b with
    | unary u op' a' => simp [Expr.same, Expr.same_iff a a', and_assoc]
    | _ => simp [Expr.same]
  | .binary t a op b, e => by
    cases e with
    | binary u a' op' b' =>
      simp only [Expr.same, Bool.and_eq_true, decide_eq_true_eq, Expr.same_iff a a',
        Expr.same_iff b b', Expr.binary.injEq]
      -- the test compares the operators before the operands
      exact ⟨fun ⟨⟨⟨ht, hop⟩, ha⟩, hb⟩ => ⟨ht, ha, hop, hb⟩,
        fun ⟨ht, ha, hop, hb⟩ => ⟨⟨⟨ht, hop⟩, ha⟩, hb⟩⟩
    | _ => simp [Expr.same]
  | .conditional t c a b, e => by
    cases e with
    | conditional u c' a' b' =>
      simp [Expr.same, Expr.same_iff c c', Block.same_iff a a', Block.sameIfAny_iff b b', and_assoc]
    | _ => simp [Expr.same]

theorem Block.same_iff : ∀ a b : Block, a.same b = true ↔ a = b
  | ⟨t, a⟩, ⟨u, b⟩ => by simp [Block.same, Stmt.sameAll_iff a b]

theorem Block.sameIfAny_iff : ∀ a b : Option Block, Block.sameIfAny a b = true ↔ a = b
  | none, b => by cases b <;> simp [Block.sameIfAny]
  | some a, none => by simp [Block.sameIfAny]
  | some a, some b => by simp [Block.sameIfAny, Block.same_iff a b]

theorem Stmt.same_iff : ∀ a b : Stmt, a.same b = true ↔ a = b
  | .binding t x a, b => by
    cases b with
    | binding u y a' => simp [Stmt.same, Expr.sameIfAny_iff a a', and_assoc]
    | _ => simp [Stmt.same]
  | .result t a, b => by
    cases b with
    | result u a' => simp [Stmt.same, Expr.sameIfAny_iff a a']
    | _ => simp [Stmt.same]
  | .expression t a, b => by
    cases b with
    | expression u a' => simp [Stmt.same, Expr.same_iff a a']
    | _ => simp [Stmt.same]
  | .block a, b => by
    cases b with
    | block a' => simp [Stmt.same, Block.same_iff a a']
    | _ => simp [Stmt.same]

theorem Expr.sameIfAny_iff : ∀ a b : Option Expr, Expr.sameIfAny a b = true ↔ a = b
  | none, b => by cases b <;> simp [Expr.sameIfAny]
  | some a, none => by simp [Expr.sameIfAny]
  | some a, some b => by simp [Expr.sameIfAny, Expr.same_iff a b]

theorem Stmt.sameAll_iff : ∀ a b : List Stmt, Stmt.sameAll a b = true ↔ a = b
  | [], b => by cases b <;> simp [Stmt.sameAll]
  | a :: as, [] => by simp [Stmt.sameAll]
  | a :: as, b :: bs => by simp [Stmt.sameAll, Stmt.same_iff a b, Stmt.sameAll_iff as bs]

end

instance : DecidableEq Expr := fun a b => decidable_of_iff _ (Expr.same_iff a b)

instance : DecidableEq Stmt := fun a b => decidable_of_iff _ (Stmt.same_iff a b)

instance : DecidableEq Block := fun a b => decidable_of_iff _ (Block.same_iff a b)

instance : DecidableEq Program := fun a b =>
  decidable_of_iff (a.statements = b.statements) <| by
    cases a; cases b; simp

end Treewalk
