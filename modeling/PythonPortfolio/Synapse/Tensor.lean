import PythonPortfolio.Library.TopoSort
import PythonPortfolio.Synapse.Linalg

/-!
# Tensors and the backward pass

Tensors live in a heap and are named by their index in it, which stands for the object
identity. The closure `_ctx` is kept as the operation and the tensors it captures, and
`_prev` as the order in which that set is iterated. The limit of `backward` is
Python's recursion limit.
-/

namespace PythonPortfolio.Synapse

open Library

/-- The backward closure of a tensor. -/
inductive Ctx where
  | leaf
  | add (self other : Nat)
  | mul (self other : Nat)
  | matmul (self other : Nat)
  | relu (self : Nat)
  | sum (self : Nat)
deriving DecidableEq

/-- The `_children` an operation passes to the constructor. -/
def Ctx.children : Ctx → List Nat
  | .leaf => []
  | .add self other | .mul self other | .matmul self other => [self, other]
  | .relu self | .sum self => [self]

structure Tensor (K : Type) where
  data : Matrix K
  grad : Option (Matrix K)
  ctx : Ctx
  prev : List Nat
deriving DecidableEq

abbrev Heap (K : Type) := List (Tensor K)

namespace Heap

open Synapse.Matrix

variable {K : Type}

def data (h : Heap K) (v : Nat) : Matrix K := (h[v]?.map Tensor.data).getD []

def grad (h : Heap K) (v : Nat) : Option (Matrix K) := h[v]?.bind Tensor.grad

def ctx (h : Heap K) (v : Nat) : Ctx := (h[v]?.map Tensor.ctx).getD .leaf

def prev (h : Heap K) (v : Nat) : List Nat := (h[v]?.map Tensor.prev).getD []

def setGrad (h : Heap K) (v : Nat) (g : Matrix K) : Heap K :=
  h.modify v fun t => { t with grad := some g }

/-- `Tensor(data, _children)`; `prev` is the order of `set(_children)`. -/
def tensor (h : Heap K) (data : Matrix K) (ctx : Ctx) (prev : List Nat) : Heap K :=
  h ++ [⟨data, none, ctx, prev⟩]

variable [CommRing K] [LinearOrder K]

def add (h : Heap K) (self other : Nat) (prev : List Nat) : Except PyError (Heap K) := do
  let data ← Linalg.add (h.data self) (h.data other)
  return h.tensor data (.add self other) prev

def mul (h : Heap K) (self other : Nat) (prev : List Nat) : Except PyError (Heap K) := do
  let data ← (List.range (h.data self).length).mapM fun r => do
    let row ← item (h.data self) 0
    (List.range row.length).mapM fun c => do
      let x ← (h.data self).cell r c
      let y ← (h.data other).cell r c
      return x * y
  return h.tensor data (.mul self other) prev

def matmul (h : Heap K) (self other : Nat) (prev : List Nat) : Except PyError (Heap K) := do
  let data ← Linalg.matmul (h.data self) (h.data other)
  return h.tensor data (.matmul self other) prev

def relu (h : Heap K) (self : Nat) (prev : List Nat) : Heap K :=
  h.tensor (Linalg.relu (h.data self)) (.relu self) prev

def sum (h : Heap K) (self : Nat) (prev : List Nat) : Heap K :=
  h.tensor [[Linalg.sumMatrix (h.data self)]] (.sum self) prev

/-! ## The backward closures -/

def initGrad (h : Heap K) (v : Nat) : Except PyError (Heap K) := do
  let row ← item (h.data v) 0
  return h.setGrad v (Linalg.zeros (h.data v).length row.length)

/-- `if v.grad is None: v._init_grad()`. -/
def ensureGrad (h : Heap K) (v : Nat) : Except PyError (Heap K) :=
  if (h.grad v).isNone then h.initGrad v else .ok h

/-- `v.grad` where a matrix is needed. -/
def gradOf (h : Heap K) (v : Nat) : Except PyError (Matrix K) :=
  match h.grad v with
  | some g => .ok g
  | none => .error .typeError

/-- `v.grad = Linalg.add(v.grad, d)`. -/
def addGrad (h : Heap K) (v : Nat) (d : Matrix K) : Except PyError (Heap K) := do
  let g ← h.gradOf v
  let g ← Linalg.add g d
  return h.setGrad v g

/-- `[[a[i][j] * g[i][j] for j in range(cols)] for i in range(rows)]`. -/
def hadamard (rows cols : Nat) (a g : Matrix K) : Except PyError (Matrix K) :=
  table rows cols fun i j => do
    let x ← a.cell i j
    let y ← g.cell i j
    return x * y

def backwardAdd (h : Heap K) (self other out : Nat) : Except PyError (Heap K) := do
  let h ← h.ensureGrad self
  let h ← h.ensureGrad other
  let h ← h.addGrad self (← h.gradOf out)
  h.addGrad other (← h.gradOf out)

def backwardMul (h : Heap K) (self other out : Nat) : Except PyError (Heap K) := do
  let h ← h.ensureGrad self
  let h ← h.ensureGrad other
  let g ← h.gradOf out
  let rows := g.length
  let cols := (← item g 0).length
  let h ← h.addGrad self (← hadamard rows cols (h.data other) g)
  h.addGrad other (← hadamard rows cols (h.data self) (← h.gradOf out))

def backwardMatmul (h : Heap K) (self other out : Nat) : Except PyError (Heap K) := do
  let h ← h.ensureGrad self
  let h ← h.ensureGrad other
  let dSelf ← Linalg.matmul (← h.gradOf out) (← Linalg.transpose (h.data other))
  let dOther ← Linalg.matmul (← Linalg.transpose (h.data self)) (← h.gradOf out)
  let h ← h.addGrad self dSelf
  h.addGrad other dOther

def backwardRelu (h : Heap K) (self out : Nat) : Except PyError (Heap K) := do
  let h ← h.ensureGrad self
  let dRelu := Linalg.dRelu (h.data self)
  let cols := (← item dRelu 0).length
  h.addGrad self (← hadamard dRelu.length cols dRelu (← h.gradOf out))

def backwardSum (h : Heap K) (self out : Nat) : Except PyError (Heap K) := do
  let h ← h.ensureGrad self
  let gradVal ← (← h.gradOf out).cell 0 0
  let rows := (h.data self).length
  let cols := (← item (h.data self) 0).length
  h.addGrad self (List.replicate rows (List.replicate cols gradVal))

/-- `node._ctx()`. -/
def runCtx (h : Heap K) (out : Nat) : Except PyError (Heap K) :=
  match h.ctx out with
  | .leaf => .ok h
  | .add self other => h.backwardAdd self other out
  | .mul self other => h.backwardMul self other out
  | .matmul self other => h.backwardMatmul self other out
  | .relu self => h.backwardRelu self out
  | .sum self => h.backwardSum self out

def buildTopo (h : Heap K) (limit root : Nat) : Except PyError (List Nat) :=
  match TopoSort.visit h.prev limit .start root with
  | some search => .ok search.topo
  | none => .error .recursionError

def backward (h : Heap K) (limit root : Nat) : Except PyError (Heap K) := do
  let topo ← h.buildTopo limit root
  topo.reverse.foldlM runCtx (h.setGrad root [[1]])

end Heap

end PythonPortfolio.Synapse
