import MaskForge.Structured.CanonicalBuilder
/-!
# CanonicalSet — the items seen so far

An item that is complete is hashed and compared with the items of its bucket, both over a stack of its own and without
recursion.  A duplicate leaves nothing behind; another item is kept.
-/
namespace MaskForge

/-- What is written to a hasher. -/
inductive HashWrite where
  | tag (kind : Nat)
  | bool (b : Bool)
  | len (n : Nat)
  | bytes (bytes : List Byte)
  deriving DecidableEq, Repr

inductive CanonicalInsert where
  | duplicate
  | inserted (fingerprint : UInt64) (oldBucketLen : Nat) (bucketCreated : Bool)

namespace CanonicalArena

/-- What stands directly inside of a value. -/
def below (a : CanonicalArena) (id : CanonicalId) : List CanonicalId :=
  match a.nodes[id]? with
  | some (.array r) => a.childrenOf r
  | some (.object r) => (a.entriesOf r).map ObjectEntry.value
  | _ => []

/-- How many values there are in a value down to a depth, itself among them. -/
def weightWithin (a : CanonicalArena) : Nat → CanonicalId → Nat
  | 0, _ => 0
  | depth + 1, id => ((a.below id).map (a.weightWithin depth)).sum + 1

/-- What is inside of a value stands in front of it, so it is nested no deeper than its place. -/
def weight (a : CanonicalArena) (id : CanonicalId) : Nat := a.weightWithin (id + 1) id

def hashNumber (a : CanonicalArena) (n : NumberRecord) : List HashWrite :=
  [.bool n.negative, .bool n.expNegative, .bytes (a.spanBytes n.expDigits), .bytes (a.spanBytes n.digits)]

def eqNumber (a : CanonicalArena) (p q : NumberRecord) : Bool :=
  p.negative == q.negative && p.expNegative == q.expNegative && a.spanBytes p.expDigits == a.spanBytes q.expDigits &&
    a.spanBytes p.digits == a.spanBytes q.digits

def keysOf (a : CanonicalArena) (r : EntryRange) : List (List Byte) := (a.entriesOf r).map fun e => a.spanBytes e.key

def valuesOf (a : CanonicalArena) (r : EntryRange) : List CanonicalId := (a.entriesOf r).map ObjectEntry.value

end CanonicalArena

namespace Building

section
variable {μ : Type} (room : Room μ) (hasher : List HashWrite → UInt64) (budget : Nat)

/-- Pushes one by one, with room asked for before each. -/
def pushEach {α : Type} (store : Store) : List α → List α → Building μ (List α)
  | [], stack => pure stack
  | x :: xs, stack => do
    ask (room.grow store budget stack.length 1)
    pushEach store xs (x :: stack)

/-- The loop of `fingerprint`, with the top of the stack in front; what is written, in its order. -/
def hashLoop : Nat → List CanonicalId → List HashWrite → Building μ (List HashWrite)
  | 0, _, _ => stuck
  | _ + 1, [], writes => pure writes
  | fuel + 1, id :: stack, writes => do
    let s ← .get
    match s.arena.nodes[id]? with
    | none => stuck
    | some .null => hashLoop fuel stack (writes ++ [.tag 0])
    | some (.bool b) => hashLoop fuel stack (writes ++ [.tag 1, .bool b])
    | some (.number n) => hashLoop fuel stack (writes ++ .tag 2 :: s.arena.hashNumber n)
    | some (.string span) => hashLoop fuel stack (writes ++ [.tag 3, .bytes (s.arena.spanBytes span)])
    | some (.array r) => do
      let stack ← pushEach room budget .hashStack (s.arena.childrenOf r).reverse stack
      hashLoop fuel stack (writes ++ [.tag 4, .len r.len])
    | some (.object r) => do
      let stack ← pushEach room budget .hashStack (s.arena.valuesOf r).reverse stack
      hashLoop fuel stack (writes ++ [.tag 5, .len r.len] ++ (s.arena.keysOf r).reverse.map .bytes)

def fingerprint (root : CanonicalId) : Building μ UInt64 := do
  let s ← .get
  ask (room.grow .hashStack budget 0 1)
  let writes ← hashLoop room budget (s.arena.weight root + 1) [root] []
  return hasher writes

/-- The loop of `arena_eq`. -/
def eqLoop : Nat → List (CanonicalId × CanonicalId) → Building μ Bool
  | 0, _ => stuck
  | _ + 1, [] => pure true
  | fuel + 1, (x, y) :: stack =>
    if x = y then eqLoop fuel stack
    else do
      let s ← .get
      match s.arena.nodes[x]?, s.arena.nodes[y]? with
      | none, _ | _, none => stuck
      | some .null, some .null => eqLoop fuel stack
      | some (.bool p), some (.bool q) => if p = q then eqLoop fuel stack else pure false
      | some (.number p), some (.number q) => if s.arena.eqNumber p q then eqLoop fuel stack else pure false
      | some (.string p), some (.string q) =>
        if s.arena.spanBytes p = s.arena.spanBytes q then eqLoop fuel stack else pure false
      | some (.array p), some (.array q) =>
        if p.len ≠ q.len then pure false
        else do
          let stack ← pushEach room budget .eqStack ((s.arena.childrenOf p).zip (s.arena.childrenOf q)).reverse stack
          eqLoop fuel stack
      | some (.object p), some (.object q) =>
        if p.len ≠ q.len then pure false
        else if s.arena.keysOf p ≠ s.arena.keysOf q then pure false
        else do
          let stack ← pushEach room budget .eqStack ((s.arena.valuesOf p).zip (s.arena.valuesOf q)).reverse stack
          eqLoop fuel stack
      | some _, some _ => pure false

def arenaEq (a b : CanonicalId) : Building μ Bool := do
  let s ← .get
  ask (room.grow .eqStack budget 0 1)
  eqLoop room budget (s.arena.weight a + 1) [(a, b)]

/-- A new builder, in place of the one there is. -/
def startItem : Building μ Unit := do
  ask (room.start budget)
  modifyBuilder fun _ => ⟨[.valueStart], none, []⟩

def feedItem (byte : Byte) : Building μ BuilderMark := fun s =>
  match pushByte room budget byte s with
  | (.ok _, t) => (.ok (builderMark s), t)
  | (.error e, t) => (.error e, restore room (builderMark s) t)

/-- Whether a value equals one of a bucket. -/
def anyEqual (root : CanonicalId) : List CanonicalId → Building μ Bool
  | [] => pure false
  | existing :: rest => do
    let equal ← arenaEq room budget existing root
    if equal then pure true else anyEqual root rest

def setBucket (fingerprint : UInt64) (ids : List CanonicalId) : Building μ Unit :=
  .modify fun s => { s with buckets := s.buckets.insert fingerprint ids }

/-- A bucket is created with its first value. -/
def insert (root : CanonicalId) : Building μ CanonicalInsert := do
  let fingerprint ← fingerprint room hasher budget root
  let s ← .get
  let bucket := s.buckets.lookup fingerprint
  let duplicate ← anyEqual room budget root (bucket.getD [])
  if duplicate then return .duplicate
  else do
    ask (room.grow .buckets budget (bucket.getD []).length 1)
    setBucket fingerprint (bucket.getD [] ++ [root])
    return .inserted fingerprint (bucket.getD []).length bucket.isNone

def finishItem : Building μ CanonicalInsert := fun s =>
  match finish room budget s with
  | (.error e, t) => (.error e, restore room (builderMark s) t)
  | (.ok id, t) => match insert room hasher budget id t with
    | (.ok .duplicate, u) => (.ok .duplicate, restore room (builderMark s) u)
    | (.ok (.inserted fingerprint oldBucketLen bucketCreated), u) =>
      (.ok (.inserted fingerprint oldBucketLen bucketCreated), u)
    | (.error e, u) => (.error e, restore room (builderMark s) u)

/-- `rollback_insert`. -/
def rollbackInsert (fingerprint : UInt64) (oldBucketLen : Nat) (bucketCreated : Bool) (s : CanonicalSet μ) :
    CanonicalSet μ :=
  if bucketCreated then
    { s with mem := room.releaseBucket fingerprint s.mem, buckets := s.buckets.erase fingerprint }
  else match s.buckets.lookup fingerprint with
    | none => s
    | some ids => { s with buckets := s.buckets.insert fingerprint (ids.take oldBucketLen) }

end

/-- Whether a kept item is a string. -/
def containsString {μ : Type} (s : CanonicalSet μ) (value : List Byte) : Bool :=
  s.buckets.any fun _ ids => ids.any fun id => match s.arena.nodes[id]? with
    | some (.string span) => decide (s.arena.spanBytes span = value)
    | _ => false

end Building
end MaskForge
