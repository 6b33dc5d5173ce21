import KeyedMatching.Term.Basic
import KeyedMatching.Text.Numeral

/-!
# Shared terms

A `Bank` stores terms node by node, each node once, with its children by number. Two terms stored in
a bank are the same term exactly when they have the same number.

* A bank is a list of nodes, an index of them, and a counter. The index has several parts; a hash
  tells in which of them a node is entered, and what is stored does not depend on it.
* A number has 32 bits. The counter starts again from zero after the last, and the nodes stored from
  then on take the places of others.
* `Bank.intern` finds a node or adds it at the end; as long as the counter has not started again, a
  number given out keeps its meaning.
* `Bank.make` builds a node over stored terms. An application that has another for its head takes
  over its arguments, so that no stored application is the head of one.
* `Bank.add` stores a whole term, and `Bank.term?` reads one back.
-/

namespace KeyedMatching

/-- A node of a term, its children being given by number. -/
inductive BankNode where
  | rel (index : Nat)
  | sort (level : Nat)
  | const (name : String)
  | hole (id : Nat) (inst : List Nat)
  | app (head : Nat) (args : List Nat)
  | pi (dom body : Nat)
  | lam (dom body : Nat)
  | letIn (value type body : Nat)
  | cast (subject type : Nat)
  | case (motive scrutinee : Nat) (branches : List Nat)
  | fix (index : Nat) (types bodies : List Nat)
  deriving DecidableEq

/-- The children of a node. -/
def BankNode.children : BankNode → List Nat
  | .rel _ | .sort _ | .const _ => []
  | .hole _ xs => xs
  | .app h xs => h :: xs
  | .pi a b | .lam a b => [a, b]
  | .letIn v a b => [v, a, b]
  | .cast t a => [t, a]
  | .case r s bs => r :: s :: bs
  | .fix _ as bs => as ++ bs

/-- Number of parts of the index. -/
def shardCount : Nat := 16

/-- Nodes that are stored once. -/
structure Bank where
  /-- The nodes by number. -/
  nodes : List BankNode := []
  /-- Each node with its number, entered in one part of the index. -/
  shards : Vector (List (BankNode × Nat)) shardCount := .replicate shardCount []
  /-- The number that a new node gets. -/
  next : Nat := 0
  deriving DecidableEq

namespace Bank

/-- The node of a number. -/
def node? (b : Bank) (id : Nat) : Option BankNode :=
  b.nodes[id]?

section
variable [Hashable BankNode]

/-- The part of the index for a node. -/
def shardOf (n : BankNode) : Fin shardCount :=
  ⟨(hash n).toNat % shardCount, Nat.mod_lt _ (by decide)⟩

/-- The number that a node was entered with. -/
def number? (b : Bank) (n : BankNode) : Option Nat :=
  b.shards[shardOf n].lookup n

/-- Store a node under the next number. The list of nodes is made long enough first. After the
largest number the counter starts again, and the node that has the number then is replaced. -/
def insert (b : Bank) (n : BankNode) : Bank where
  nodes := (b.nodes.rightpad (b.next + 1) (.rel 0)).set b.next n
  shards := b.shards.set (shardOf n) ((n, b.next) :: b.shards[shardOf n])
  next := (b.next + 1) % Text.bound32

/-- How many nodes have been entered. -/
def entered (b : Bank) : Nat :=
  b.shards.toList.flatten.length

/-- The number of a node, which is added if it is new. -/
def intern (n : BankNode) : StateM Bank Nat := fun b =>
  match b.number? n with
  | some id => (id, b)
  | none => (b.next, b.insert n)

/-- Apply a term to arguments: to none it is the term itself, and an application takes more. -/
def app (head : Nat) (args : List Nat) : StateM Bank Nat := do
  if args.isEmpty then return head
  match (← get).node? head with
  | some (.app inner before) => intern (.app inner (before ++ args))
  | _ => intern (.app head args)

/-- Build a node whose children are stored. -/
def make : BankNode → StateM Bank Nat
  | .app head args => app head args
  | n => intern n

end

/-- The head and the arguments of a term. -/
def spine (b : Bank) (id : Nat) : Nat × List Nat :=
  match b.node? id with
  | some (.app head args) => (head, args)
  | _ => (id, [])

section
variable [Hashable BankNode]

mutual

/-- Store the term that a head is. -/
def addHead : Head → StateM Bank Nat
  | .rel i => make (.rel i)
  | .sort n => make (.sort n)
  | .const c => make (.const c)
  | .hole k xs => do
    let xs ← addAll xs
    make (.hole k xs)
  | .pi a b => do
    let a ← add a
    let b ← add b
    make (.pi a b)
  | .lam a b => do
    let a ← add a
    let b ← add b
    make (.lam a b)
  | .letIn v a b => do
    let v ← add v
    let a ← add a
    let b ← add b
    make (.letIn v a b)
  | .cast t a => do
    let t ← add t
    let a ← add a
    make (.cast t a)
  | .case r s bs => do
    let r ← add r
    let s ← add s
    let bs ← addAll bs
    make (.case r s bs)
  | .fix i as bs => do
    let as ← addAll as
    let bs ← addAll bs
    make (.fix i as bs)

/-- Store a term. -/
def add : Term → StateM Bank Nat
  | .mk h xs => do
    let h ← addHead h
    let xs ← addAll xs
    make (.app h xs)

/-- Store each term of a list. -/
def addAll : List Term → StateM Bank (List Nat)
  | [] => return []
  | x :: xs => do
    let x ← add x
    let xs ← addAll xs
    return x :: xs

end

end

/-- The term that a node stands for, its children being read back by `child`. -/
def nodeTerm? (child : Nat → Option Term) : BankNode → Option Term
  | .rel i => some (.rel i)
  | .sort n => some (.sort n)
  | .const c => some (.const c)
  | .hole k xs => do
    let xs ← xs.mapM child
    return .hole k xs
  | .app h xs => do
    let h ← child h
    let xs ← xs.mapM child
    return h.apply xs
  | .pi a b => do
    let a ← child a
    let b ← child b
    return .pi a b
  | .lam a b => do
    let a ← child a
    let b ← child b
    return .lam a b
  | .letIn v a b => do
    let v ← child v
    let a ← child a
    let b ← child b
    return .ofHead (.letIn v a b)
  | .cast t a => do
    let t ← child t
    let a ← child a
    return .ofHead (.cast t a)
  | .case r s bs => do
    let r ← child r
    let s ← child s
    let bs ← bs.mapM child
    return .ofHead (.case r s bs)
  | .fix i as bs => do
    let as ← as.mapM child
    let bs ← bs.mapM child
    return .ofHead (.fix i as bs)

/-- The term of a number, if it has at most `n` levels. -/
def termWithin (b : Bank) : Nat → Nat → Option Term
  | 0 => fun _ => none
  | n + 1 => fun id => (b.node? id).bind (nodeTerm? (b.termWithin n))

/-- The term of a number. The children of a node have smaller numbers than the node. -/
def term? (b : Bank) (id : Nat) : Option Term :=
  b.termWithin (id + 1) id

end Bank

-- Only now, so that everything above is about any hash.
deriving instance Hashable for BankNode

end KeyedMatching
