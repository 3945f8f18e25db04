/-!
# Ordered trees

A tree whose nodes carry values and hold any number of subtrees in order. It can be numbered in
post-order (a node after everything below it) and listed in pre-order (a node before it).
`Tree.walk` lists it with a list of pending subtrees instead of recursion; main statement: that list
is the pre-order (`walk_eq_descendants`).
-/

namespace LiquidTemplate

inductive Tree (α : Type) where
  | node (value : α) (children : List (Tree α))

namespace Tree

variable {α : Type}

def value : Tree α → α
  | node value _ => value

def children : Tree α → List (Tree α)
  | node _ children => children

mutual

/-- Number of nodes. -/
def size : Tree α → Nat
  | node _ children => 1 + sizeAll children

def sizeAll : List (Tree α) → Nat
  | [] => 0
  | t :: ts => t.size + sizeAll ts

end

mutual

/-- Numbers a tree in post-order, from `next` on, and gives the first number that is left. -/
def number (next : Nat) : Tree α → Tree (Nat × α) × Nat
  | node value children =>
    let (children, next) := numberAll next children
    (node (next, value) children, next + 1)

def numberAll (next : Nat) : List (Tree α) → List (Tree (Nat × α)) × Nat
  | [] => ([], next)
  | t :: ts =>
    let (t, next) := t.number next
    let (ts, next) := numberAll next ts
    (t :: ts, next)

end

mutual

/-- The nodes of a tree in pre-order, each after the value of the node that holds it; `parent` is
that of the root. -/
def preorder (parent : α) : Tree α → List (α × α)
  | node value children => (parent, value) :: preorderAll value children

def preorderAll (parent : α) : List (Tree α) → List (α × α)
  | [] => []
  | t :: ts => t.preorder parent ++ preorderAll parent ts

end

/-- The nodes below the root, in pre-order. -/
def descendants (t : Tree α) : List (α × α) := preorderAll t.value t.children

/-! ## Walking without recursion -/

/-- Number of nodes in the pending subtrees. -/
def pendingSize : List (α × Tree α) → Nat
  | [] => 0
  | (_, t) :: pending => t.size + pendingSize pending

theorem pendingSize_append (ps qs : List (α × Tree α)) :
    pendingSize (ps ++ qs) = pendingSize ps + pendingSize qs := by
  induction ps with
  | nil => simp [pendingSize]
  | cons p ps ih => simp [pendingSize, ih, Nat.add_assoc]

/-- Subtrees that are to be visited, with the value of the node that holds them. -/
def heldBy (parent : α) (ts : List (Tree α)) : List (α × Tree α) := ts.map fun t => (parent, t)

theorem pendingSize_heldBy (parent : α) (ts : List (Tree α)) :
    pendingSize (heldBy parent ts) = sizeAll ts := by
  induction ts with
  | nil => rfl
  | cons t ts ih =>
    simp only [heldBy, List.map_cons, pendingSize, sizeAll] at *
    rw [ih]

/-- Visits the pending subtrees, each with the value of the node that holds it. What is visited so
far is kept in reverse. -/
def walkOnto (visited : List (α × α)) : List (α × Tree α) → List (α × α)
  | [] => visited.reverse
  | (parent, node value children) :: pending =>
    walkOnto ((parent, value) :: visited) (heldBy value children ++ pending)
termination_by pending => pendingSize pending
decreasing_by
  rw [pendingSize_append, pendingSize_heldBy, pendingSize, size]
  omega

/-- Visits every node below the root, with the value of the node that holds it. -/
def walk (t : Tree α) : List (α × α) := walkOnto [] (heldBy t.value t.children)

theorem flatMap_heldBy (parent : α) (ts : List (Tree α)) :
    ((heldBy parent ts).flatMap fun p => p.2.preorder p.1) = preorderAll parent ts := by
  induction ts with
  | nil => rfl
  | cons t ts ih => simpa [heldBy, preorderAll] using ih

theorem walkOnto_eq (visited : List (α × α)) (pending : List (α × Tree α)) :
    walkOnto visited pending = visited.reverse ++ pending.flatMap fun p => p.2.preorder p.1 := by
  fun_induction walkOnto visited pending with
  | case1 => simp
  | case2 visited parent value children pending ih =>
    rw [ih, List.flatMap_append, flatMap_heldBy]
    simp [preorder]

/-- Walking visits the nodes in pre-order. -/
theorem walk_eq_descendants (t : Tree α) : t.walk = t.descendants := by
  rw [walk, walkOnto_eq, flatMap_heldBy]
  rfl

end Tree

end LiquidTemplate
