import NanomsgDemo.Net.CacheQueue

/-!
# The subscriptions of a SUB socket

`trie.c` keeps the strings a SUB socket has subscribed to in a Patricia trie. A node
holds how often its string is subscribed to, up to ten bytes that come before its
children, and the children themselves: in a sparse array with a letter for each of at
most eight, or in a dense one with a slot for every letter of a range.

The array of pointers that follows a node is `child`, and a null pointer is `none`. A
node's memory belongs to the one pointer to it, so a step through a pointer to a
pointer is a recursive call that gives the new target. Whatever the code must not do
(read through a null pointer, go beyond an array, fail an assertion) is `none`.
-/

namespace NanomsgDemo.Nanomsg

open Net (Byte)

def NN_TRIE_PREFIX_MAX : Nat := 10

def NN_TRIE_SPARSE_MAX : Nat := 8

def EINVAL : Int := 22

/-- The union `u`, with `type`: a sparse array has as many children as letters. -/
inductive ChildIndex where
  | sparse (children : List Byte)
  | dense (min max : Byte) (nbr : Nat)
  deriving DecidableEq, Repr

/-- `nn_trie_node`, with `prefix_len` bytes of its prefix and the pointers behind it. -/
structure NnTrieNode where
  refcount : Nat
  prefixBytes : List Byte
  u : ChildIndex
  child : List (Option NnTrieNode)

structure NnTrie where
  root : Option NnTrieNode

def nnTrieInit : NnTrie := { root := none }

/-- How many letters of the first list begin the second. -/
def agreeing : List Byte → List Byte → Nat
  | p :: ps, d :: ds => if p = d then agreeing ps ds + 1 else 0
  | _, _ => 0

def nnNodeCheckPrefix (n : NnTrieNode) (data : List Byte) : Nat :=
  agreeing n.prefixBytes data

def nnNodeHasSubscribers (n : NnTrieNode) : Bool := n.refcount ≠ 0

/-- The place of the pointer that the letter leads to. -/
def nnNodeNext (n : NnTrieNode) (c : Byte) : Option Nat :=
  match n.u with
  | .sparse children => children.idxOf? c
  | .dense min max _ => if c < min ∨ max < c then none else some (c.toNat - min.toNat)

/-- The node is merged with its only child, if nobody subscribes to it and they fit into one. -/
def nnNodeCompact (n : NnTrieNode) : Option NnTrieNode :=
  if nnNodeHasSubscribers n then some n
  else
    match n.u with
    | .sparse [c] =>
        match n.child with
        | some ch :: _ =>
            if NN_TRIE_PREFIX_MAX < n.prefixBytes.length + ch.prefixBytes.length + 1 then some n
            else some { ch with prefixBytes := n.prefixBytes ++ c :: ch.prefixBytes }
        | _ => none
    | _ => some n

/-! ## Subscribing -/

/-- Step 5: the subscription as such; the count has 32 bits. -/
def subscribed (n : NnTrieNode) : NnTrieNode × Int :=
  let refcount := (n.refcount + 1) % 2 ^ 32
  ({ n with refcount }, if refcount = 1 then 1 else 0)

/-- Step 4: new nodes for what remains of the subscription, ten letters of a prefix in each. -/
def newNodes (data : List Byte) : NnTrieNode × Int :=
  match _h : data.drop NN_TRIE_PREFIX_MAX with
  | [] => subscribed { refcount := 0, prefixBytes := data, u := .sparse [], child := [] }
  | c :: rest =>
      let new := newNodes rest
      ({ refcount := 0
         prefixBytes := data.take NN_TRIE_PREFIX_MAX
         u := .sparse [c]
         child := [some new.1] }, new.2)
termination_by data.length
decreasing_by
  have := congrArg List.length _h
  simp only [List.length_drop, List.length_cons] at this
  omega

/-- The pointer at a place, which must be null, is set to the new nodes. -/
def putNew (n : NnTrieNode) (i : Nat) (new : NnTrieNode × Int) : Option (NnTrieNode × Int) :=
  match n.child[i]? with
  | some none => some ({ n with child := n.child.set i (some new.1) }, new.2)
  | _ => none

/-- A dense array over the letters of a sparse one and a further letter. -/
def toDense (n : NnTrieNode) (children : List Byte) (c : Byte) : NnTrieNode :=
  let min := Min.min (children.foldl Min.min 255) c
  let max := Max.max (children.foldl Max.max 0) c
  let slots := List.replicate (max.toNat - min.toNat + 1) none
  -- the number of subscriptions of the old node is not taken over
  { refcount := 0
    prefixBytes := n.prefixBytes
    u := .dense min max (children.length + 1)
    child := (children.zip n.child).foldl
      (fun slots p => slots.set (p.1.toNat - min.toNat) p.2) slots }

/-- A dense array that reaches as far as the letter. -/
def widened (n : NnTrieNode) (min max : Byte) (nbr : Nat) (c : Byte) : NnTrieNode :=
  if c < min ∨ max < c then
    let newMin := Min.min min c
    let newMax := Max.max max c
    { n with
      u := .dense newMin newMax (nbr + 1)
      child :=
        if min ≠ newMin then List.replicate (min.toNat - newMin.toNat) none ++ n.child
        else n.child ++ List.replicate (newMax.toNat - max.toNat) none }
  else { n with u := .dense min max (nbr + 1) }

/-- Step 3: a child for a letter that has none, and step 4 from there. -/
def addChild (n : NnTrieNode) (c : Byte) (data : List Byte) : Option (NnTrieNode × Int) :=
  let new := newNodes data
  match n.u with
  | .sparse children =>
      if children.length < NN_TRIE_SPARSE_MAX then
        some ({ n with u := .sparse (children ++ [c]), child := n.child ++ [some new.1] }, new.2)
      else
        let n := toDense n children c
        (nnNodeNext n c).bind fun i => putNew n i new
  | .dense min max nbr =>
      putNew (widened n min max nbr c) (c.toNat - (Min.min min c).toNat) new

/-- Step 2: the prefix is split behind its first `pos` letters, which are those of the data. -/
def splitPrefix (n : NnTrieNode) (pos : Nat) (data : List Byte) : Option (NnTrieNode × Int) :=
  match n.prefixBytes.drop pos with
  | [] => none
  | d :: rest =>
      (nnNodeCompact { n with prefixBytes := rest }).bind fun ch =>
        let n : NnTrieNode :=
          { refcount := 0
            prefixBytes := n.prefixBytes.take pos
            u := .sparse [d]
            child := [some ch] }
        match data with
        | [] => some (subscribed n)
        | c :: data => addChild n c data

/-- Step 1: the walk from a node, with what is then done at its end. -/
def subscribeAt (node : Option NnTrieNode) (data : List Byte) : Option (NnTrieNode × Int) :=
  match node with
  | none => some (newNodes data)
  | some n =>
      let pos := nnNodeCheckPrefix n data
      if pos < n.prefixBytes.length then splitPrefix n pos (data.drop pos)
      else
        match _h : data.drop pos with
        | [] => some (subscribed n)
        | c :: rest =>
            match nnNodeNext n c with
            | none => addChild n c rest
            | some i =>
                match n.child[i]? with
                | none => none
                | some none => addChild n c rest
                | some (some ch) =>
                    (subscribeAt (some ch) rest).map fun new =>
                      ({ n with child := n.child.set i (some new.1) }, new.2)
termination_by data.length
decreasing_by
  have := congrArg List.length _h
  simp only [List.length_drop, List.length_cons] at this
  omega

def nnTrieSubscribe (t : NnTrie) (data : List Byte) : Option (NnTrie × Int) :=
  (subscribeAt t.root data).map fun new => ({ root := some new.1 }, new.2)

/-! ## Matching -/

/-- The walk of `nn_trie_match`, from a node. -/
def matchAt (node : Option NnTrieNode) (data : List Byte) : Option Bool :=
  match node with
  | none => some false
  | some n =>
      if nnNodeCheckPrefix n data ≠ n.prefixBytes.length then some false
      else if nnNodeHasSubscribers n then some true
      else
        match _h : data.drop n.prefixBytes.length with
        -- the letter that is looked at next lies behind the data
        | [] => none
        | c :: rest =>
            match nnNodeNext n c with
            | none => some false
            | some i => (n.child[i]?).bind fun ch => matchAt ch rest
termination_by data.length
decreasing_by
  have := congrArg List.length _h
  simp only [List.length_drop, List.length_cons] at this
  omega

def nnTrieMatch (t : NnTrie) (data : List Byte) : Option Bool :=
  matchAt t.root data

/-! ## Unsubscribing -/

/-- The end of a string that is unsubscribed. -/
def unsubscribed (node : Option NnTrieNode) : Option (Option NnTrieNode × Int) :=
  match node with
  | none => some (none, -EINVAL)
  | some n =>
      if ¬nnNodeHasSubscribers n then some (some n, -EINVAL)
      else
        let n := { n with refcount := n.refcount - 1 }
        if n.refcount ≠ 0 then some (some n, 0)
        else if n.u = .sparse [] then some (none, 1)
        else (nnNodeCompact n).map fun n => (some n, 1)

/-- The child at the letter is taken out of a sparse array. -/
def dropSparse (n : NnTrieNode) (children : List Byte) (c : Byte) :
    Option (Option NnTrieNode × Int) :=
  match children.idxOf? c with
  | none => none
  | some i =>
      let n := { n with u := .sparse (children.eraseIdx i), child := n.child.eraseIdx i }
      if n.u = .sparse [] ∧ ¬nnNodeHasSubscribers n then some (none, 1)
      else (nnNodeCompact n).map fun n => (some n, 1)

/-- The letters of a dense array that have a child, from the one at its first slot on. -/
def present (min : Nat) : List (Option NnTrieNode) → List (Byte × NnTrieNode)
  | [] => []
  | none :: slots => present (min + 1) slots
  | some ch :: slots => (UInt8.ofNat min, ch) :: present (min + 1) slots

/-- The last slot up to the `i`th that has a child, or the first one of all. -/
def lastPresent (slots : List (Option NnTrieNode)) : Nat → Nat
  | 0 => 0
  | i + 1 =>
      match slots[i + 1]? with
      | some (some _) => i + 1
      | _ => lastPresent slots i

/-- The child at the letter, whose pointer is null by now, is taken out of a dense array. -/
def dropDense (n : NnTrieNode) (min max : Byte) (nbr : Nat) (c : Byte) :
    Option (Option NnTrieNode × Int) :=
  if NN_TRIE_SPARSE_MAX + 1 < nbr then
    if c = min then
      let i := (n.child.takeWhile Option.isNone).length
      some (some { n with
        u := .dense (UInt8.ofNat (i + min.toNat)) max (nbr - 1)
        child := n.child.drop i }, 1)
    else if c = max then
      let i := lastPresent n.child (max.toNat - min.toNat)
      some (some { n with
        u := .dense min (UInt8.ofNat (i + min.toNat)) (nbr - 1)
        child := n.child.take (i + 1) }, 1)
    else some (some { n with u := .dense min max (nbr - 1) }, 1)
  else
    let left := present min.toNat n.child
    if left.length = NN_TRIE_SPARSE_MAX then
      -- nor is it taken over here
      some (some { refcount := 0
                   prefixBytes := n.prefixBytes
                   u := .sparse (left.map Prod.fst)
                   child := left.map (some ·.2) }, 1)
    else none

def dropChild (n : NnTrieNode) (c : Byte) : Option (Option NnTrieNode × Int) :=
  match n.u with
  | .sparse children => dropSparse n children c
  | .dense min max nbr => dropDense n min max nbr c

def nnNodeUnsubscribe (node : Option NnTrieNode) (data : List Byte) :
    Option (Option NnTrieNode × Int) :=
  if data = [] then unsubscribed node
  else
    match node with
    -- the prefix of a null pointer is looked at
    | none => none
    | some n =>
        if nnNodeCheckPrefix n data ≠ n.prefixBytes.length then some (some n, 0)
        else
          match _h : data.drop n.prefixBytes.length with
          | [] => unsubscribed (some n)
          | c :: rest =>
              match nnNodeNext n c with
              | none => some (some n, 0)
              | some i =>
                  (n.child[i]?).bind fun ch =>
                    (nnNodeUnsubscribe ch rest).bind fun new =>
                      let n := { n with child := n.child.set i new.1 }
                      if new.2 = 0 then some (some n, 0)
                      else if new.1.isSome then some (some n, 1)
                      else dropChild n c
termination_by data.length
decreasing_by
  have := congrArg List.length _h
  simp only [List.length_drop, List.length_cons] at this
  omega

def nnTrieUnsubscribe (t : NnTrie) (data : List Byte) : Option (NnTrie × Int) :=
  (nnNodeUnsubscribe t.root data).map fun new => ({ root := new.1 }, new.2)

end NanomsgDemo.Nanomsg
