import Sietch.Base.Chain
import Sietch.Base.SortedMap

/-! B+trees as values. The entries are in the leaves, all at one depth; a node carries the
number under which it is kept, and a leaf the number of the next one. What does not fit in a
node is split in the middle, and a child that a deletion has emptied is taken out, without
any other rebalancing. -/

structure Leaf (K V : Type) where
  id : Nat
  entries : List (K × V)
  next : Nat
  deriving DecidableEq, Repr

structure Branch (K C : Type) where
  id : Nat
  chain : Chain K C
  deriving DecidableEq, Repr

/-- A tree of a given depth below its root. -/
abbrev BPlusTree (K V : Type) : Nat → Type
  | 0 => Leaf K V
  | n + 1 => Branch K (BPlusTree K V n)

/-- What an insertion makes of a node: the node, or two with a separator between them. -/
inductive Grown (K C : Type) where
  | one (c : C)
  | two (l : C) (s : K) (r : C)
  deriving DecidableEq, Repr

def Grown.chain {K C : Type} : Grown K C → Chain K C
  | one c => .last c
  | two l s r => .cons l s (.last r)

@[simp] theorem Grown.chain_one {K C : Type} (c : C) : (one c : Grown K C).chain = .last c := rfl

@[simp] theorem Grown.chain_two {K C : Type} (l : C) (s : K) (r : C) :
    (two l s r).chain = .cons l s (.last r) := rfl

/-- Which nodes fit, and the first number that cannot be used. -/
structure Capacity (K V : Type) where
  leaf : List (K × V) → Bool
  node : List K → Bool
  limit : Nat
  leaf_sublist : ∀ {xs ys : List (K × V)}, xs.Sublist ys → leaf ys → leaf xs
  node_sublist : ∀ {xs ys : List K}, xs.Sublist ys → node ys → node xs

section Steps
variable {K V C : Type} [LinearOrder K] (cap : Capacity K V)
open SortedMap (lookup insertEntry eraseEntry)

/-- The right half keeps the link of the leaf, the left half is linked to it. -/
def Leaf.insert (k : K) (v : V) (l : Leaf K V) (next : Nat) :
    Option (Grown K (Leaf K V) × Nat) :=
  let es := insertEntry k v l.entries
  let mid := es.length / 2
  if cap.leaf es then some (.one { l with entries := es }, next)
  else match es.drop mid with
    | [] => none
    | e :: right =>
        if next + 1 < cap.limit ∧ cap.leaf (es.take mid) ∧ cap.leaf (e :: right) then
          some (.two ⟨l.id, es.take mid, next⟩ e.1 ⟨next, e :: right, l.next⟩, next + 1)
        else none

/-- The separator in the middle goes to the parent. -/
def Branch.absorb (k : K) (b : Branch K C) (g : Grown K C) (next : Nat) :
    Option (Grown K (Branch K C) × Nat) :=
  let ch := b.chain.splice k g.chain
  if cap.node ch.seps then some (.one ⟨b.id, ch⟩, next)
  else match ch.splitAt (max (ch.children.length / 2) 1) with
    | none => none
    | some (l, s, r) =>
        if next + 1 < cap.limit ∧ cap.node l.seps ∧ cap.node r.seps then
          some (.two ⟨b.id, l⟩ s ⟨next, r⟩, next + 1)
        else none

def Leaf.delete (k : K) (l : Leaf K V) : Option (Leaf K V × Bool) :=
  if (lookup k l.entries).isSome then
    some ({ l with entries := eraseEntry k l.entries }, (eraseEntry k l.entries).isEmpty)
  else none

/-- An emptied child is taken out, unless it is the only one. -/
def Branch.dismiss (k : K) (b : Branch K C) (c : C) (emptied : Bool) : Branch K C × Bool :=
  if emptied then
    match b.chain.detach k with
    | some ch => (⟨b.id, ch⟩, false)
    | none => (⟨b.id, .last c⟩, true)
  else (⟨b.id, b.chain.splice k (.last c)⟩, false)

end Steps

namespace BPlusTree
variable {K V : Type}

def id : {n : Nat} → BPlusTree K V n → Nat
  | 0, l => Leaf.id l
  | _ + 1, t => Branch.id t

def leaves : {n : Nat} → BPlusTree K V n → List (Leaf K V)
  | 0, l => [l]
  | _ + 1, t => (Branch.chain t).children.flatMap leaves

def ids : {n : Nat} → BPlusTree K V n → List Nat
  | 0, l => [Leaf.id l]
  | _ + 1, t => Branch.id t :: (Branch.chain t).children.flatMap ids

def toList {n : Nat} (t : BPlusTree K V n) : List (K × V) := t.leaves.flatMap (·.entries)

def Fits (cap : Capacity K V) : {n : Nat} → BPlusTree K V n → Prop
  | 0, l => cap.leaf (Leaf.entries l)
  | _ + 1, t => cap.node (Branch.chain t).seps ∧ ∀ c ∈ (Branch.chain t).children, Fits cap c

variable [LinearOrder K]

/-- The leaf that a key belongs to, between those before it and those after it. -/
def locate (k : K) : {n : Nat} → BPlusTree K V n → List (Leaf K V) × Leaf K V × List (Leaf K V)
  | 0, l => ([], l, [])
  | _ + 1, t =>
      let (before, c, after) := (Branch.chain t).locate k
      let (pre, l, post) := locate k c
      (before.flatMap leaves ++ pre, l, post ++ after.flatMap leaves)

/-- The keys of each subtree are between the separators around it. -/
def Ordered : {n : Nat} → Option K → Option K → BPlusTree K V n → Prop
  | 0, lo, hi, l =>
      SortedMap.Ascending (Leaf.entries l) ∧ ∀ e ∈ Leaf.entries l, Chain.Within lo hi e.1
  | _ + 1, lo, hi, t => (Branch.chain t).Spanned Ordered lo hi

def insert (cap : Capacity K V) (k : K) (v : V) :
    {n : Nat} → BPlusTree K V n → Nat → Option (Grown K (BPlusTree K V n) × Nat)
  | 0, l, next => Leaf.insert cap k v l next
  | _ + 1, t, next =>
      match insert cap k v ((Branch.chain t).route k) next with
      | none => none
      | some (g, next) => Branch.absorb cap k t g next

def delete (k : K) : {n : Nat} → BPlusTree K V n → Option (BPlusTree K V n × Bool)
  | 0, l => Leaf.delete k l
  | _ + 1, t =>
      match delete k ((Branch.chain t).route k) with
      | none => none
      | some (c, emptied) => some (Branch.dismiss k t c emptied)

structure Rooted (K V : Type) where
  depth : Nat
  tree : BPlusTree K V depth

instance decEq [DecidableEq K] [DecidableEq V] : (n : Nat) → DecidableEq (BPlusTree K V n)
  | 0 => inferInstanceAs (DecidableEq (Leaf K V))
  | n + 1 =>
      have := decEq n
      inferInstanceAs (DecidableEq (Branch K (BPlusTree K V n)))

instance [DecidableEq K] [DecidableEq V] : DecidableEq (Rooted K V)
  | ⟨n, t⟩, ⟨m, u⟩ =>
      if h : n = m then
        match m, h, u with
        | _, rfl, u => decidable_of_iff (t = u) (by rw [Rooted.mk.injEq]; simp)
      else isFalse (fun heq => h (congrArg Rooted.depth heq))

/-- Insertion at the root, which gets a new root above it when it is split. -/
def put (cap : Capacity K V) (k : K) (v : V) (t : Rooted K V) (next : Nat) :
    Option (Rooted K V × Nat) :=
  match t.tree.insert cap k v next with
  | none => none
  | some (.one t', next) => some (⟨t.depth, t'⟩, next)
  | some (.two l s r, next) =>
      if next + 1 < cap.limit ∧ cap.node [s] then
        some (⟨t.depth + 1, (⟨next, .cons l s (.last r)⟩ : Branch K (BPlusTree K V t.depth))⟩,
          next + 1)
      else none

/-- A tree that is in order, whose nodes fit and have different numbers, `0` excepted. -/
structure Rooted.WF (cap : Capacity K V) (next : Nat) (t : Rooted K V) : Prop where
  ordered : t.tree.Ordered none none
  fits : t.tree.Fits cap
  nodup : t.tree.ids.Nodup
  numbered : ∀ i ∈ t.tree.ids, 0 < i ∧ i < next

/-- A root that was emptied makes room for its only child. -/
def collapse : {n : Nat} → BPlusTree K V n → Rooted K V
  | 0, l => ⟨0, l⟩
  | n + 1, t => ⟨n, (Branch.chain t).head⟩

/-- Deletion at the root, if the key is there. -/
def remove (k : K) (t : Rooted K V) : Option (Rooted K V) :=
  match t.tree.delete k with
  | none => none
  | some (t', true) => some t'.collapse
  | some (t', false) => some ⟨t.depth, t'⟩

end BPlusTree
