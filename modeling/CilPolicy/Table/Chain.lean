import CilPolicy.Kernel.Error

/-!
Hash tables with a fixed number of buckets. Each bucket is a chain in the order
of the table's comparison, so a lookup stops at the first greater key. The table
is listed bucket by bucket, each chain from its front.
-/

namespace CilPolicy

namespace Chain

variable {κ : Type u} {ν : Type v}

def find? (cmp : κ → κ → Ordering) (key : κ) : List (κ × ν) → Option ν
  | [] => none
  | (k, v) :: rest =>
    match cmp key k with
    | .eq => some v
    | .lt => none
    | .gt => find? cmp key rest

/-- The chain with a new entry, unless the key has one. -/
def insert? (cmp : κ → κ → Ordering) (key : κ) (value : ν) :
    List (κ × ν) → Option (List (κ × ν))
  | [] => some [(key, value)]
  | (k, v) :: rest =>
    match cmp key k with
    | .eq => none
    | .lt => some ((key, value) :: (k, v) :: rest)
    | .gt => (insert? cmp key value rest).map ((k, v) :: ·)

/-- The entry of the key and the chain without it. -/
def remove? (cmp : κ → κ → Ordering) (key : κ) :
    List (κ × ν) → Option ((κ × ν) × List (κ × ν))
  | [] => none
  | (k, v) :: rest =>
    match cmp key k with
    | .eq => some ((k, v), rest)
    | .lt => none
    | .gt => (remove? cmp key rest).map fun (entry, rest') => (entry, (k, v) :: rest')

/-- The chain with the value of the key changed. -/
def update? (cmp : κ → κ → Ordering) (key : κ) (change : ν → ν) :
    List (κ × ν) → Option (List (κ × ν))
  | [] => none
  | (k, v) :: rest =>
    match cmp key k with
    | .eq => some ((k, change v) :: rest)
    | .lt => none
    | .gt => (update? cmp key change rest).map ((k, v) :: ·)

end Chain

/-- A hash table whose chains are kept in order. -/
structure ChainTable (κ : Type u) (ν : Type v) where
  hash : κ → UInt32
  cmp : κ → κ → Ordering
  buckets : Array (List (κ × ν))
  size : Nat

namespace ChainTable

variable {κ : Type u} {ν : Type v}

/-- An empty table with that many buckets, at least one. -/
def new (hash : κ → UInt32) (cmp : κ → κ → Ordering) (bucketCount : Nat) : ChainTable κ ν where
  hash := hash
  cmp := cmp
  buckets := Array.replicate (max bucketCount 1) []
  size := 0

def bucketOf (t : ChainTable κ ν) (key : κ) : Nat :=
  (t.hash key).toNat % t.buckets.size

/-- The chain that may hold the key. -/
def chainOf (t : ChainTable κ ν) (key : κ) : List (κ × ν) :=
  t.buckets.getD (t.bucketOf key) []

/-- The table with the key's chain replaced. -/
def setChain (t : ChainTable κ ν) (key : κ) (chain : List (κ × ν)) (size : Nat) :
    ChainTable κ ν :=
  { t with buckets := t.buckets.setIfInBounds (t.bucketOf key) chain, size := size }

def find? (t : ChainTable κ ν) (key : κ) : Option ν :=
  Chain.find? t.cmp key (t.chainOf key)

/-- Adds an entry; a key that has one keeps it. -/
def insert (t : ChainTable κ ν) (key : κ) (value : ν) :
    Except KernelError (ChainTable κ ν) :=
  match Chain.insert? t.cmp key value (t.chainOf key) with
  | some chain => .ok (t.setChain key chain (t.size + 1))
  | none => .error .alreadyExists

/-- Takes the entry of the key out of the table. -/
def remove (t : ChainTable κ ν) (key : κ) :
    Except KernelError ((κ × ν) × ChainTable κ ν) :=
  match Chain.remove? t.cmp key (t.chainOf key) with
  | some (entry, chain) => .ok (entry, t.setChain key chain (t.size - 1))
  | none => .error .notFound

/-- Changes the value of the key, when it has one. -/
def update? (t : ChainTable κ ν) (key : κ) (change : ν → ν) : Option (ChainTable κ ν) :=
  (Chain.update? t.cmp key change (t.chainOf key)).map fun chain => t.setChain key chain t.size

/-- Every entry, by bucket and then along the chain. -/
def toList (t : ChainTable κ ν) : List (κ × ν) :=
  t.buckets.toList.flatten

/-- Changes every value. -/
def mapValues (t : ChainTable κ ν) (change : ν → ν) : ChainTable κ ν :=
  { t with buckets := t.buckets.map (·.map fun (k, v) => (k, change v)) }

def isEmpty (t : ChainTable κ ν) : Bool :=
  t.size == 0

def bucketCount (t : ChainTable κ ν) : Nat :=
  t.buckets.size

/-- Length of the longest chain. -/
def longestChain (t : ChainTable κ ν) : Nat :=
  t.buckets.foldl (fun longest chain => max longest chain.length) 0

/-- The entries in braces, each as its quoted key and its value. -/
def text [ToString ν] (t : ChainTable String ν) : String :=
  Text.braced (t.toList.map fun (k, v) => Text.quote k ++ ": " ++ toString v)

end ChainTable

end CilPolicy
