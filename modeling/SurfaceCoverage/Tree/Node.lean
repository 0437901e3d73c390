import SurfaceCoverage.Tree.Kind
import SurfaceCoverage.Text
/-!
# Trees of scripts

A tree keeps every character of its script: a leaf holds its text, the space between two tokens is
a leaf too, and the text of a branch is the text of its leaves. Tokens and blanks have no name;
`namedChildren` are the children with one, comments left out.

`descendants` visits a node before its descendants and the children of a node in order. It keeps
the nodes still to visit in a list, so that a deep tree needs no deep recursion. `preorder` is the
same sequence by recursion on the tree.
-/

namespace SurfaceCoverage

/-- A node of a script's tree, with the part it plays in its parent. -/
inductive Node where
  | leaf (role : Role) (kind : Kind) (text : String)
  | branch (role : Role) (kind : Kind) (children : List Node)
deriving Inhabited

namespace Node

def role : Node → Role
  | leaf r _ _ => r
  | branch r _ _ => r

def kind : Node → Kind
  | leaf _ k _ => k
  | branch _ k _ => k

def children : Node → List Node
  | leaf .. => []
  | branch _ _ cs => cs

mutual
/-- Whether two nodes are the same. -/
def decEq : (m n : Node) → Decidable (m = n)
  | leaf r k t, leaf r' k' t' => decidable_of_iff (r = r' ∧ k = k' ∧ t = t') (by simp)
  | branch r k cs, branch r' k' cs' =>
    have := decEqAll cs cs'
    decidable_of_iff (r = r' ∧ k = k' ∧ cs = cs') (by simp)
  | leaf .., branch .. => isFalse nofun
  | branch .., leaf .. => isFalse nofun

/-- Whether two lists of nodes are the same. -/
def decEqAll : (ms ns : List Node) → Decidable (ms = ns)
  | [], [] => isTrue rfl
  | m :: ms, n :: ns =>
    have := decEq m n
    have := decEqAll ms ns
    decidable_of_iff (m = n ∧ ms = ns) (by simp)
  | [], _ :: _ => isFalse nofun
  | _ :: _, [] => isFalse nofun
end

instance : DecidableEq Node := decEq

/-- The same node in another part. -/
def withRole (r : Role) : Node → Node
  | leaf _ k t => leaf r k t
  | branch _ k cs => branch r k cs

mutual
/-- The exact text of a node. -/
def text : Node → String
  | leaf _ _ t => t
  | branch _ _ cs => textAll cs

/-- The text of consecutive nodes. -/
def textAll : List Node → String
  | [] => ""
  | n :: ns => n.text ++ textAll ns
end

mutual
/-- The number of nodes of a tree. -/
def size : Node → Nat
  | leaf .. => 1
  | branch _ _ cs => sizeAll cs + 1

/-- The number of nodes of a list of trees. -/
def sizeAll : List Node → Nat
  | [] => 0
  | n :: ns => n.size + sizeAll ns
end

theorem size_pos (n : Node) : 0 < n.size := by
  cases n <;> simp [size]

theorem sizeAll_append (ms ns : List Node) : sizeAll (ms ++ ns) = sizeAll ms + sizeAll ns := by
  induction ms with
  | nil => simp [sizeAll]
  | cons m ms ih => simp [sizeAll, ih, Nat.add_assoc]

theorem size_eq (n : Node) : n.size = sizeAll n.children + 1 := by
  cases n <;> simp [size, children, sizeAll]

theorem size_le_sizeAll {n : Node} {ns : List Node} (h : n ∈ ns) : n.size ≤ sizeAll ns := by
  induction ns with
  | nil => cases h
  | cons m ms ih =>
    cases h with
    | head => simp [sizeAll]
    | tail _ h => simp only [sizeAll]; have := ih h; omega

theorem size_lt_of_mem_children {c n : Node} (h : c ∈ n.children) : c.size < n.size := by
  have := size_le_sizeAll h
  rw [size_eq n]
  omega

mutual
/-- A node, then the nodes of each child's tree in turn. -/
def preorder : Node → List Node
  | leaf r k t => [leaf r k t]
  | branch r k cs => branch r k cs :: preorderAll cs

/-- The nodes of a list of trees, tree by tree. -/
def preorderAll : List Node → List Node
  | [] => []
  | n :: ns => n.preorder ++ preorderAll ns
end

/-- The nodes of the pending trees, the first pending tree first. -/
def visit : List Node → List Node
  | [] => []
  | n :: pending => n :: visit (n.children ++ pending)
termination_by pending => sizeAll pending
decreasing_by simp only [sizeAll_append, sizeAll, size_eq n]; omega

/-- A node and all nodes below it, in document order. -/
def descendants (n : Node) : List Node := visit [n]

/-- The nodes of one kind in a tree, in document order. -/
def findAll (n : Node) (k : Kind) : List Node := n.descendants.filter (·.kind == k)

def isNamed (n : Node) : Bool := n.kind.isNamed

/-- The children with a name, comments left out. -/
def namedChildren (n : Node) : List Node :=
  n.children.filter fun c => c.isNamed && c.kind != .comment

/-- The child that plays a part. -/
def child? (n : Node) (r : Role) : Option Node := n.children.find? (·.role == r)

/-- The name of a node's kind; the name of a token is its own text. -/
def kindName (n : Node) : String := if n.kind = .token then n.text else n.kind.name

/-- Whether one of the children is the given keyword or punctuation. -/
def hasToken (n : Node) (t : String) : Bool :=
  n.children.any fun c => c.kind == .token && c.text == t

/-- The text of a node as a name. -/
def name (n : Node) : Text := Text.ofString n.text

end Node
end SurfaceCoverage
