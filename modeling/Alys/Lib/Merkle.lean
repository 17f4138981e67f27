import Mathlib.Algebra.GroupWithZero.Nat

/-!
# Authentication paths

A path leads from a leaf to a root: at each step a sibling stands to the left or to the right and
the two are paired. Hashes that cannot collide are a pairing that is injective on a set of nodes;
then the root and the sides of a path determine its leaf and the siblings, and two paths of which
one goes on where the sides of the other end meet at an inner node.

In a complete tree the path of a leaf has as its sides the binary digits of the leaf's index.
-/

namespace Alys.Lib

variable {α : Type}

/-- The root that a path gives for a leaf. Each step is a side, `true` for a sibling on the left,
and the sibling. -/
def climb (pair : α → α → α) (leaf : α) (path : List (Bool × α)) : α :=
  path.foldl (fun node step => if step.1 then pair step.2 node else pair node step.2) leaf

/-- Pairing is injective on a set of nodes that it does not leave. -/
structure PairsNodes (Node : α → Prop) (pair : α → α → α) : Prop where
  closed : ∀ {l r}, Node l → Node r → Node (pair l r)
  injective : ∀ {l r l' r'}, Node l → Node r → Node l' → Node r' → pair l r = pair l' r' →
    l = l' ∧ r = r'

variable {pair : α → α → α}

lemma climb_cons {leaf : α} {step : Bool × α} {path : List (Bool × α)} :
    climb pair leaf (step :: path) =
      climb pair (if step.1 then pair step.2 leaf else pair leaf step.2) path := rfl

lemma climb_append {leaf : α} {path path' : List (Bool × α)} :
    climb pair leaf (path ++ path') = climb pair (climb pair leaf path) path' :=
  List.foldl_append

namespace PairsNodes

variable {Node : α → Prop} {pair : α → α → α} {leaf leaf' : α} {path path' : List (Bool × α)}

lemma step (h : PairsNodes Node pair) {side : Bool × α} (hleaf : Node leaf) (hside : Node side.2) :
    Node (if side.1 then pair side.2 leaf else pair leaf side.2) := by
  split
  case isTrue => exact h.closed hside hleaf
  case isFalse => exact h.closed hleaf hside

lemma climb (h : PairsNodes Node pair) (hleaf : Node leaf) (hpath : ∀ step ∈ path, Node step.2) :
    Node (climb pair leaf path) := by
  induction path generalizing leaf with
  | nil => exact hleaf
  | cons side path ih =>
    rw [climb_cons]
    apply ih
    · exact h.step hleaf (hpath side List.mem_cons_self)
    · exact fun step mem => hpath step (List.mem_cons_of_mem side mem)

/-- The sides of a path and its root determine the leaf and the siblings. -/
lemma path_unique (h : PairsNodes Node pair) (hleaf : Node leaf) (hleaf' : Node leaf')
    (hpath : ∀ step ∈ path, Node step.2) (hpath' : ∀ step ∈ path', Node step.2)
    (sides : path.map (·.1) = path'.map (·.1))
    (root : Lib.climb pair leaf path = Lib.climb pair leaf' path') :
    leaf = leaf' ∧ path = path' := by
  induction path generalizing leaf leaf' path' with
  | nil =>
    cases path' with
    | nil => exact ⟨root, rfl⟩
    | cons => cases sides
  | cons side path ih =>
    cases path' with
    | nil => cases sides
    | cons side' path' =>
      obtain ⟨hside, hsides⟩ := List.cons.inj sides
      have hnode := hpath side List.mem_cons_self
      have hnode' := hpath' side' List.mem_cons_self
      obtain ⟨hmid, rfl⟩ := ih (h.step hleaf hnode) (h.step hleaf' hnode')
        (fun step mem => hpath step (List.mem_cons_of_mem side mem))
        (fun step mem => hpath' step (List.mem_cons_of_mem side' mem)) hsides root
      change side.1 = side'.1 at hside
      rw [hside] at hmid
      split at hmid
      case isTrue =>
        obtain ⟨hsibling, rfl⟩ := h.injective hnode hleaf hnode' hleaf' hmid
        exact ⟨rfl, by rw [Prod.ext hside hsibling]⟩
      case isFalse =>
        obtain ⟨rfl, hsibling⟩ := h.injective hleaf hnode hleaf' hnode' hmid
        exact ⟨rfl, by rw [Prod.ext hside hsibling]⟩

/-- A leaf that is no pair cannot stand where a longer path, with the same last sides, has an inner
node. -/
lemma sides_unique (h : PairsNodes Node pair) (hleaf : Node leaf) (hleaf' : Node leaf')
    (hpath : ∀ step ∈ path, Node step.2) (hpath' : ∀ step ∈ path', Node step.2)
    (bottom : ∀ l r, Node l → Node r → leaf ≠ pair l r) {sides : List Bool}
    (hsides : path'.map (·.1) = sides ++ path.map (·.1))
    (root : Lib.climb pair leaf path = Lib.climb pair leaf' path') : sides = [] := by
  obtain ⟨lower, upper, rfl, hlower, hupper⟩ := List.map_eq_append_iff.mp hsides
  have hlower' : ∀ step ∈ lower, Node step.2 := fun step mem =>
    hpath' step (List.mem_append_left upper mem)
  have hupper' : ∀ step ∈ upper, Node step.2 := fun step mem =>
    hpath' step (List.mem_append_right lower mem)
  rw [climb_append] at root
  have hmeet := (h.path_unique hleaf (h.climb hleaf' hlower') hpath hupper' hupper.symm root).1
  -- the node where the paths meet is a pair, unless the longer path has no lower part
  rcases List.eq_nil_or_concat lower with rfl | ⟨lower, step, rfl⟩
  · exact hlower.symm
  · rw [List.concat_eq_append] at hlower' hmeet
    have hstep : Node step.2 := hlower' step (by simp)
    have hnode := h.climb hleaf' fun side mem => hlower' side (List.mem_append_left [step] mem)
    rw [climb_append, climb_cons] at hmeet
    split at hmeet
    case isTrue => exact absurd hmeet (bottom _ _ hstep hnode)
    case isFalse => exact absurd hmeet (bottom _ _ hnode hstep)

end PairsNodes

/-! ## Complete trees -/

/-- A binary tree with all leaves at depth `h`. -/
inductive CompleteTree (α : Type) : Nat → Type where
  | leaf (a : α) : CompleteTree α 0
  | node {h : Nat} (l r : CompleteTree α h) : CompleteTree α (h + 1)

namespace CompleteTree

variable {h : Nat} {pair : α → α → α}

def root (pair : α → α → α) : {h : Nat} → CompleteTree α h → α
  | _, .leaf a => a
  | _, .node l r => pair (l.root pair) (r.root pair)

/-- The leaves from left to right. -/
def leaves : {h : Nat} → CompleteTree α h → List α
  | _, .leaf a => [a]
  | _, .node l r => l.leaves ++ r.leaves

/-- The siblings on the way from a leaf to the root. -/
def siblings (pair : α → α → α) : {h : Nat} → CompleteTree α h → Nat → List α
  | _, .leaf _, _ => []
  | h + 1, .node l r, i =>
    if i < 2 ^ h then l.siblings pair i ++ [r.root pair]
    else r.siblings pair (i - 2 ^ h) ++ [l.root pair]

lemma length_leaves (t : CompleteTree α h) : t.leaves.length = 2 ^ h := by
  induction t with
  | leaf a => rfl
  | node l r ihl ihr => rw [leaves, List.length_append, ihl, ihr, Nat.pow_succ, Nat.mul_two]

lemma length_siblings (t : CompleteTree α h) (i : Nat) : (t.siblings pair i).length = h := by
  induction t generalizing i with
  | leaf a => rfl
  | node l r ihl ihr =>
    rw [siblings]
    split
    case isTrue => rw [List.length_append, ihl, List.length_singleton]
    case isFalse => rw [List.length_append, ihr, List.length_singleton]

/-- Climbing from a leaf past its siblings, on the sides that its index says, leads to the root. -/
lemma climb_siblings (t : CompleteTree α h) {i : Nat} {leaf : α} {sides : Nat → Bool}
    (hleaf : t.leaves[i]? = some leaf) (hsides : ∀ n < h, sides n = i.testBit n) :
    climb pair leaf ((t.siblings pair i).zipIdx.map fun x => (sides x.2, x.1)) = t.root pair := by
  induction t generalizing i with
  | leaf a =>
    cases List.mem_singleton.mp (List.mem_of_getElem? hleaf)
    rfl
  | @node h l r ihl ihr =>
    have hlast := hsides h (Nat.lt_succ_self h)
    rw [siblings]
    split
    case isTrue lt =>
      -- the leaf stands in the left half: the digit of the last step is zero
      rw [Nat.testBit_lt_two_pow lt] at hlast
      rw [leaves, List.getElem?_append_left (l.length_leaves ▸ lt)] at hleaf
      have hsub := ihl hleaf fun n hn => hsides n (Nat.lt_succ_of_lt hn)
      rw [List.zipIdx_append, List.map_append, climb_append, hsub, length_siblings, root]
      simp [climb, hlast]
    case isFalse ge =>
      obtain ⟨j, rfl⟩ := Nat.exists_eq_add_of_le (Nat.le_of_not_lt ge)
      rw [leaves, List.getElem?_append_right (by rw [length_leaves]; omega), length_leaves,
        Nat.add_sub_cancel_left] at hleaf
      have hj : j < 2 ^ h := r.length_leaves ▸ (List.getElem?_eq_some_iff.mp hleaf).1
      rw [Nat.testBit_two_pow_add_eq, Nat.testBit_lt_two_pow hj] at hlast
      have hsub := ihr hleaf fun n hn => by
        rw [hsides n (Nat.lt_succ_of_lt hn), Nat.testBit_two_pow_add_gt hn]
      rw [Nat.add_sub_cancel_left, List.zipIdx_append, List.map_append, climb_append, hsub,
        length_siblings, root]
      simp [climb, hlast]

end CompleteTree

end Alys.Lib
