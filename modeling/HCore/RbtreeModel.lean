import HCore.BalancedTrees
import HCore.Machine

/-!
The red-black tree of linked nodes with a shared sentinel. Memory keeps the
fields of the node at each address; NULL is the address 0, and reading or
writing a field through it is undefined. The loops of the source follow
pointers between nodes, so their budget is the number of addresses. Code that
is written twice with left and right exchanged is one definition with a side.
-/

namespace HCore.RbtreeModel

open Machine BalancedTrees

/-- The fields of `hcore_rbtree_node_t` by address; addresses lie below `top`. -/
structure NodeMemory where
  top : ℕ
  key : ℕ → ℕ
  child : Side → ℕ → ℕ
  parent : ℕ → ℕ
  color : ℕ → Color

namespace NodeMemory

def setKey (m : NodeMemory) (p k : ℕ) : NodeMemory :=
  { m with key := fun q => if q = p then k else m.key q }

def setChild (m : NodeMemory) (d : Side) (p q : ℕ) : NodeMemory :=
  { m with child := fun e r => if e = d ∧ r = p then q else m.child e r }

def setParent (m : NodeMemory) (p q : ℕ) : NodeMemory :=
  { m with parent := fun r => if r = p then q else m.parent r }

def setColor (m : NodeMemory) (p : ℕ) (c : Color) : NodeMemory :=
  { m with color := fun q => if q = p then c else m.color q }

def loadKey (m : NodeMemory) (p : ℕ) : Exec ℕ := if p = 0 then undefined else pure (m.key p)

def loadChild (m : NodeMemory) (d : Side) (p : ℕ) : Exec ℕ :=
  if p = 0 then undefined else pure (m.child d p)

def loadParent (m : NodeMemory) (p : ℕ) : Exec ℕ := if p = 0 then undefined else pure (m.parent p)

def loadColor (m : NodeMemory) (p : ℕ) : Exec Color := if p = 0 then undefined else pure (m.color p)

def storeKey (m : NodeMemory) (p k : ℕ) : Exec NodeMemory :=
  if p = 0 then undefined else pure (m.setKey p k)

def storeChild (m : NodeMemory) (d : Side) (p q : ℕ) : Exec NodeMemory :=
  if p = 0 then undefined else pure (m.setChild d p q)

def storeParent (m : NodeMemory) (p q : ℕ) : Exec NodeMemory :=
  if p = 0 then undefined else pure (m.setParent p q)

def storeColor (m : NodeMemory) (p : ℕ) (c : Color) : Exec NodeMemory :=
  if p = 0 then undefined else pure (m.setColor p c)

end NodeMemory

/-- `hcore_rbtree_t`; `insert` links a node below the root. -/
structure Rbtree where
  root : ℕ
  sentinel : ℕ
  insert : NodeMemory → ℕ → ℕ → ℕ → Exec NodeMemory

/-- `hcore_rbtree_init(tree, s, i)` -/
def rbtreeInit (m : NodeMemory) (s : ℕ) (i : NodeMemory → ℕ → ℕ → ℕ → Exec NodeMemory) :
    Exec (NodeMemory × Rbtree) := do
  let m ← m.storeColor s .black
  pure (m, ⟨s, s, i⟩)

/-- `hcore_rbtree_min` -/
def rbtreeMin (m : NodeMemory) (sentinel : ℕ) : ℕ → ℕ → Exec ℕ
  | 0, _ => outOfFuel
  | fuel + 1, node => do
    let left ← m.loadChild .left node
    if left ≠ sentinel then rbtreeMin m sentinel fuel left else pure node

/-- The parent of `node` gets `temp` in its place; the side `d` is looked at. -/
def replaceChild (d : Side) (m : NodeMemory) (node temp : ℕ) : Exec NodeMemory := do
  let parent ← m.loadParent node
  let child ← m.loadChild d parent
  if node = child then m.storeChild d parent temp else m.storeChild d.opposite parent temp

/-- `temp` takes the place of `node` below its parent, or as the root. -/
def replace (d : Side) (m : NodeMemory) (root node temp : ℕ) : Exec (NodeMemory × ℕ) :=
  if node = root then pure (m, temp)
  else do
    let m ← replaceChild d m node temp
    pure (m, root)

/-- A child that is not the sentinel gets a parent. -/
def linkParent (m : NodeMemory) (sentinel child parent : ℕ) : Exec NodeMemory :=
  if child ≠ sentinel then m.storeParent child parent else pure m

/-- The rotation to the side `d`. -/
def rotate (d : Side) (m : NodeMemory) (root sentinel node : ℕ) : Exec (NodeMemory × ℕ) := do
  let temp ← m.loadChild d.opposite node
  let inner ← m.loadChild d temp
  let m ← m.storeChild d.opposite node inner
  let inner ← m.loadChild d temp
  let m ← linkParent m sentinel inner node
  let parent ← m.loadParent node
  let m ← m.storeParent temp parent
  let (m, root) ← replace d m root node temp
  let m ← m.storeChild d temp node
  let m ← m.storeParent node temp
  pure (m, root)

def leftRotate (m : NodeMemory) (root sentinel node : ℕ) : Exec (NodeMemory × ℕ) :=
  rotate .left m root sentinel node

def rightRotate (m : NodeMemory) (root sentinel node : ℕ) : Exec (NodeMemory × ℕ) :=
  rotate .right m root sentinel node

/-- The loop `for (;;)` of the insertion: the node and the side where the new
node goes. -/
def descend (less : ℕ → ℕ → Bool) (m : NodeMemory) (node sentinel : ℕ) : ℕ → ℕ → Exec (ℕ × Side)
  | 0, _ => outOfFuel
  | fuel + 1, temp => do
    let key ← m.loadKey node
    let tempKey ← m.loadKey temp
    let side := if less key tempKey then .left else .right
    let next ← m.loadChild side temp
    if next = sentinel then pure (temp, side) else descend less m node sentinel fuel next

/-- The insertions below a root, by the comparison of keys. -/
def insertBelow (less : ℕ → ℕ → Bool) (m : NodeMemory) (temp node sentinel : ℕ) : Exec NodeMemory := do
  let (temp, side) ← descend less m node sentinel m.top temp
  let m ← m.storeChild side temp node
  let m ← m.storeParent node temp
  let m ← m.storeChild .left node sentinel
  let m ← m.storeChild .right node sentinel
  m.storeColor node .red

/-- `hcore_rbtree_insert_value` -/
def rbtreeInsertValue (m : NodeMemory) (temp node sentinel : ℕ) : Exec NodeMemory :=
  insertBelow (fun k k' => decide (k < k')) m temp node sentinel

/-- The comparison of timers: the 32-bit difference of the keys is read as a
signed integer. -/
def timerLess (k k' : ℕ) : Bool := decide (toInt32 (toUInt32 ((k : ℤ) - k')) < 0)

/-- `hcore_rbtree_insert_timer_value` -/
def rbtreeInsertTimerValue (m : NodeMemory) (temp node sentinel : ℕ) : Exec NodeMemory :=
  insertBelow timerLess m temp node sentinel

/-- An inner child of `parent` is rotated to the outside. -/
def turnOutside (d : Side) (m : NodeMemory) (root sentinel node parent : ℕ) :
    Exec (NodeMemory × ℕ × ℕ) := do
  let inner ← m.loadChild d.opposite parent
  if node = inner then
    let (m, root) ← rotate d m root sentinel parent
    pure (m, root, parent)
  else pure (m, root, node)

/-- A round of the loop of the insertion, for a parent on the side `d`. -/
def insertBalance (d : Side) (m : NodeMemory) (root sentinel node : ℕ) : Exec (NodeMemory × ℕ × ℕ) := do
  let parent ← m.loadParent node
  let grand ← m.loadParent parent
  let temp ← m.loadChild d.opposite grand
  let color ← m.loadColor temp
  if color = .red then
    let m ← m.storeColor parent .black
    let m ← m.storeColor temp .black
    let m ← m.storeColor grand .red
    pure (m, root, grand)
  else
    let (m, root, node) ← turnOutside d m root sentinel node parent
    let parent ← m.loadParent node
    let m ← m.storeColor parent .black
    let grand ← m.loadParent parent
    let m ← m.storeColor grand .red
    let (m, root) ← rotate d.opposite m root sentinel grand
    pure (m, root, node)

/-- The loop of the insertion. -/
def insertFixup (sentinel : ℕ) : ℕ → NodeMemory → ℕ → ℕ → Exec (NodeMemory × ℕ)
  | 0, _, _, _ => outOfFuel
  | fuel + 1, m, root, node =>
    if node = root then pure (m, root)
    else do
      let parent ← m.loadParent node
      let color ← m.loadColor parent
      if color = .red then
        let grand ← m.loadParent parent
        let left ← m.loadChild .left grand
        let side := if parent = left then Side.left else Side.right
        let (m, root, node) ← insertBalance side m root sentinel node
        insertFixup sentinel fuel m root node
      else pure (m, root)

/-- `hcore_rbtree_insert` -/
def rbtreeInsert (m : NodeMemory) (tree : Rbtree) (node : ℕ) : Exec (NodeMemory × Rbtree) :=
  if tree.root = tree.sentinel then do
    let m ← m.storeParent node 0
    let m ← m.storeChild .left node tree.sentinel
    let m ← m.storeChild .right node tree.sentinel
    let m ← m.storeColor node .black
    pure (m, { tree with root := node })
  else do
    let m ← tree.insert m tree.root node tree.sentinel
    let (m, root) ← insertFixup tree.sentinel m.top m tree.root node
    let m ← m.storeColor root .black
    pure (m, { tree with root })

/-- A red sibling `w` is rotated above the parent; the new sibling is black. -/
def raiseSibling (d : Side) (m : NodeMemory) (root sentinel temp parent w : ℕ) :
    Exec (NodeMemory × ℕ × ℕ) := do
  let color ← m.loadColor w
  if color = .red then
    let m ← m.storeColor w .black
    let m ← m.storeColor parent .red
    let (m, root) ← rotate d m root sentinel parent
    let parent ← m.loadParent temp
    let w ← m.loadChild d.opposite parent
    pure (m, root, w)
  else pure (m, root, w)

/-- A sibling with a black far child is rotated below its near child. -/
def turnSibling (d : Side) (m : NodeMemory) (root sentinel temp w near : ℕ) (farColor : Color) :
    Exec (NodeMemory × ℕ × ℕ) :=
  if farColor = .black then do
    let m ← m.storeColor near .black
    let m ← m.storeColor w .red
    let (m, root) ← rotate d.opposite m root sentinel w
    let parent ← m.loadParent temp
    let w ← m.loadChild d.opposite parent
    pure (m, root, w)
  else pure (m, root, w)

/-- A round of the loop of the deletion, for a node on the side `d`. -/
def deleteBalance (d : Side) (m : NodeMemory) (root sentinel temp : ℕ) : Exec (NodeMemory × ℕ × ℕ) := do
  let parent ← m.loadParent temp
  let w ← m.loadChild d.opposite parent
  let (m, root, w) ← raiseSibling d m root sentinel temp parent w
  let near ← m.loadChild d w
  let far ← m.loadChild d.opposite w
  let nearColor ← m.loadColor near
  let farColor ← m.loadColor far
  if nearColor = .black ∧ farColor = .black then
    let m ← m.storeColor w .red
    let temp ← m.loadParent temp
    pure (m, root, temp)
  else
    let (m, root, w) ← turnSibling d m root sentinel temp w near farColor
    let parent ← m.loadParent temp
    let color ← m.loadColor parent
    let m ← m.storeColor w color
    let m ← m.storeColor parent .black
    let far ← m.loadChild d.opposite w
    let m ← m.storeColor far .black
    let (m, root) ← rotate d m root sentinel parent
    pure (m, root, root)

/-- The loop of the deletion: it ends with a node to blacken. -/
def deleteFixup (sentinel : ℕ) : ℕ → NodeMemory → ℕ → ℕ → Exec (NodeMemory × ℕ × ℕ)
  | 0, _, _, _ => outOfFuel
  | fuel + 1, m, root, temp =>
    if temp = root then pure (m, root, temp)
    else do
      let color ← m.loadColor temp
      if color = .black then
        let parent ← m.loadParent temp
        let left ← m.loadChild .left parent
        let side := if temp = left then Side.left else Side.right
        let (m, root, temp) ← deleteBalance side m root sentinel temp
        deleteFixup sentinel fuel m root temp
      else pure (m, root, temp)

/-- The node that leaves its place, and the one that takes it. -/
def chooseSubst (m : NodeMemory) (sentinel node : ℕ) : Exec (ℕ × ℕ) := do
  let left ← m.loadChild .left node
  if left = sentinel then
    let temp ← m.loadChild .right node
    pure (temp, node)
  else
    let right ← m.loadChild .right node
    if right = sentinel then pure (left, node)
    else
      let subst ← rbtreeMin m sentinel m.top right
      let left ← m.loadChild .left subst
      if left ≠ sentinel then pure (left, subst)
      else
        let temp ← m.loadChild .right subst
        pure (temp, subst)

/-- A child of `subst` that is not the sentinel points back at it. -/
def adopt (d : Side) (m : NodeMemory) (sentinel subst : ℕ) : Exec NodeMemory := do
  let child ← m.loadChild d subst
  linkParent m sentinel child subst

/-- `subst` takes over the place, the links and the color of another `node`. -/
def substitute (m : NodeMemory) (root sentinel node subst temp : ℕ) : Exec (NodeMemory × ℕ) := do
  let parent ← m.loadParent subst
  let m ← m.storeParent temp (if parent = node then subst else parent)
  let left ← m.loadChild .left node
  let m ← m.storeChild .left subst left
  let right ← m.loadChild .right node
  let m ← m.storeChild .right subst right
  let parent ← m.loadParent node
  let m ← m.storeParent subst parent
  let color ← m.loadColor node
  let m ← m.storeColor subst color
  let (m, root) ← replace .left m root node subst
  let m ← adopt .left m sentinel subst
  let m ← adopt .right m sentinel subst
  pure (m, root)

/-- `temp` hangs where `subst` was, and `subst` where `node` was. -/
def takePlace (m : NodeMemory) (root sentinel node subst temp : ℕ) : Exec (NodeMemory × ℕ) :=
  if subst = node then do
    let parent ← m.loadParent subst
    let m ← m.storeParent temp parent
    pure (m, root)
  else substitute m root sentinel node subst temp

/-- The lines `DEBUG stuff`. -/
def clearNode (m : NodeMemory) (node : ℕ) : Exec NodeMemory := do
  let m ← m.storeChild .left node 0
  let m ← m.storeChild .right node 0
  let m ← m.storeParent node 0
  m.storeKey node 0

/-- `hcore_rbtree_delete` -/
def rbtreeDelete (m : NodeMemory) (tree : Rbtree) (node : ℕ) : Exec (NodeMemory × Rbtree) := do
  let (temp, subst) ← chooseSubst m tree.sentinel node
  if subst = tree.root then
    let m ← m.storeColor temp .black
    let m ← clearNode m node
    pure (m, { tree with root := temp })
  else
    let color ← m.loadColor subst
    let m ← replaceChild .left m subst temp
    let (m, root) ← takePlace m tree.root tree.sentinel node subst temp
    let m ← clearNode m node
    if color = .red then pure (m, { tree with root })
    else
      let (m, root, temp) ← deleteFixup tree.sentinel m.top m root temp
      let m ← m.storeColor temp .black
      pure (m, { tree with root })

end HCore.RbtreeModel
